import GoofyOs.Buddy
import Mathlib.Data.List.Flatten
import Mathlib.Data.List.Range
import Mathlib.Data.List.Pairwise
import Mathlib.Data.List.Nodup

/-!
# From the bump allocator to the buddy allocator

`mm/bump_alloc.c` hands out pages before the buddy allocator runs, and `buddy_init` of `mm/buddy.c`
frees the others. The two share the table of regions and the number `bump_allocated`, and enumerate
the pages of the regions in the same order: `bump_page` by subtracting the sizes of regions from the
index of the next page, `buddy_init` with a page index that runs along.

A signed overflow is undefined and has the outcome `none`.

## Main definitions

* `MemmapRegion`, `frames` — the table of regions, and its pages in order
* `BootState.bumpPage`, `BootState.bumpPages` — the early allocator
* `zoneLoop`, `BootState.buddyInit` — giving the other pages to the buddy allocator

## Main results

* `bumpLoop_eq`, `bumpPhys_eq` — the page with a given index
* `bumpPage_eq`, `bumpPages_eq` — the calls of `bump_page`
* `zoneLoop_eq`, `BootState.buddyInit_eq` — the pages that are passed to `free_pages`: every other
  page of those of a region that the bump allocator left
* `bump_buddyInit_disjoint` — the two allocators share no page
-/

namespace GoofyOs

/-- `MAX_BUDDY_ZONES`, which is also `MM_MAX_MEMORY_REGIONS`. -/
def maxBuddyZones : ℕ := 0x20

/-- `struct mm_memmap_region`. -/
structure MemmapRegion where
  base : ℕ
  size : ℕ

/-- What the two allocators share. -/
structure BootState where
  /-- the first `mm_region_count` entries of `mm_phys_regions` -/
  regions : List MemmapRegion
  hhdmOffset : ℕ
  bumpAllocated : ℕ
  buddyInitialized : Bool
  buddy : BuddyState
  /-- the arguments of the calls of `free_pages` by `buddy_init` -/
  passed : List (ℕ × ℕ)

/-- An `int` that was computed as `n`. -/
def intOf (n : ℕ) : Option ℕ := if n < 2 ^ 31 then some n else none

/-- `pfn_to_virt`. -/
def pfnToVirt (hhdmOffset pfn : ℕ) : ℕ := (pfn <<< 12 + hhdmOffset) % 2 ^ 64

/-! ### The bump allocator -/

/-- The loop of `bump_page`: the sum `(uint64_t)phys + (left * PAGE_SIZE)` of `__va`. -/
def bumpLoop : ℕ → List MemmapRegion → Option ℕ
  | _, [] => none
  | left, r :: rs =>
    let pageCount := asUint (r.size >>> 12)
    if pageCount > left then some (asUint r.base + asUint (left * pageSize))
    else bumpLoop (left - pageCount) rs

namespace BootState

/-- `bump_page`. After `buddy_init` it does not return. -/
def bumpPage (s : BootState) : Option (Option ℕ × BootState) :=
  if s.buddyInitialized then none
  else
    match bumpLoop s.bumpAllocated s.regions with
    | some phys =>
      some (some ((phys + s.hhdmOffset) % 2 ^ 64),
        { s with bumpAllocated := asUint (s.bumpAllocated + 1) })
    | none => some (none, s)

/-- A number of calls of `bump_page`, with the pages they return. -/
def bumpPages : ℕ → BootState → Option (List ℕ × BootState)
  | 0, s => some ([], s)
  | n + 1, s => do
    let (page, s) ← s.bumpPage
    let (pages, s) ← bumpPages n s
    some (page.toList ++ pages, s)

end BootState

/-! ### `buddy_init` -/

/-- The entries of `buddy_zones`. Those past `mm_region_count` are zero. -/
def zonesOf (regions : List MemmapRegion) : List BuddyZone :=
  regions.map (fun r => ⟨r.base >>> 12, asUint (r.size >>> 12)⟩) ++
    List.replicate (maxBuddyZones - regions.length) ⟨0, 0⟩

/-- The `while` loop on `cur_order`, where `left` is `buddy_zones[zone_idx].size - i`. -/
def curOrderLoop (left : ℕ) : ℕ → ℕ → ℕ
  | 0, curOrder => curOrder
  | n + 1, curOrder =>
    if left < 1 <<< curOrder ∧ curOrder < maxOrder then curOrderLoop left n (curOrder + 1)
    else curOrder

/-- What the loops of `buddy_init` change. -/
structure InitState where
  buddy : BuddyState
  passed : List (ℕ × ℕ)
  pageIdx : ℕ

/-- The loop over the pages of a zone. It adds one to `i` twice when it frees a page. -/
def zoneLoop (bumpAllocated : ℕ) (zone : BuddyZone) : ℕ → ℕ → InitState → Option InitState
  | 0, _, _ => none
  | n + 1, i, s =>
    if i < zone.size then
      if s.pageIdx < bumpAllocated then do
        let pageIdx ← intOf (s.pageIdx + 1)
        let i ← intOf (i + 1)
        zoneLoop bumpAllocated zone n i { s with pageIdx := pageIdx }
      else do
        let curOrder := curOrderLoop (zone.size - i) maxOrder 0
        let pfn := zone.pfnBase + i
        let buddy := s.buddy.freePages pfn curOrder
        let pageIdx ← intOf (s.pageIdx + 1 <<< curOrder)
        let i ← intOf (i + 1 <<< curOrder)
        let i ← intOf (i + 1)
        zoneLoop bumpAllocated zone n i ⟨buddy, s.passed ++ [(pfn, curOrder)], pageIdx⟩
    else some s

/-- The loop over the zones. -/
def zonesLoop (bumpAllocated : ℕ) : List BuddyZone → InitState → Option InitState
  | [], s => some s
  | zone :: zones, s => do
    let s ← zoneLoop bumpAllocated zone (zone.size + 1) 0 s
    zonesLoop bumpAllocated zones s

/-- `buddy_init`. -/
def BootState.buddyInit (s : BootState) : Option BootState := do
  let zones := zonesOf s.regions
  let r ← zonesLoop s.bumpAllocated zones ⟨{ s.buddy with buddyZones := zones }, [], 0⟩
  some { s with buddyInitialized := true, buddy := r.buddy, passed := r.passed }

/-- The zeroed memory that `buddy_init` starts from. -/
def zeroedBuddy : BuddyState where
  links := ⟨fun _ => none, fun _ => none⟩
  flags _ := 0
  buddyOrder _ := 0
  buddyLists _ := ⟨none, 0⟩
  buddyZones := []
  memsets := []

/-- The state in which `n` pages are taken. -/
def bootState (regions : List MemmapRegion) (hhdmOffset n : ℕ) : BootState where
  regions := regions
  hhdmOffset := hhdmOffset
  bumpAllocated := n
  buddyInitialized := false
  buddy := zeroedBuddy
  passed := []

/-! ### The pages of a table -/

namespace MemmapRegion

/-- The frames of a region. -/
def frames (r : MemmapRegion) : List ℕ := List.range' (r.base / pageSize) (r.size / pageSize)

/-- The frame lies in the region. -/
def Contains (r : MemmapRegion) (pfn : ℕ) : Prop :=
  r.base ≤ pfn * pageSize ∧ (pfn + 1) * pageSize ≤ r.base + r.size

end MemmapRegion

/-- The frames of a table, in the order of the regions. -/
def frames (regions : List MemmapRegion) : List ℕ := regions.flatMap MemmapRegion.frames

/-- A table that the boot loader can pass: regions of whole pages that do not overlap. -/
structure RegionsWellFormed (regions : List MemmapRegion) : Prop where
  count : regions.length ≤ maxBuddyZones
  aligned : ∀ r ∈ regions, pageSize ∣ r.base ∧ pageSize ∣ r.size
  top : ∀ r ∈ regions, r.base + r.size ≤ 2 ^ 64
  disj : regions.Pairwise fun r r' => r.base + r.size ≤ r'.base ∨ r'.base + r'.size ≤ r.base

/-! ### Every other element -/

section Lists

variable {α : Type*} {x : α} {xs : List α} {xss : List (List α)} {skip : ℕ}

/-- The elements at even positions. -/
def everyOther : List α → List α
  | [] => []
  | [x] => [x]
  | x :: _ :: xs => x :: everyOther xs

theorem everyOther_cons (x : α) (xs : List α) : everyOther (x :: xs) = x :: everyOther xs.tail := by
  cases xs with
  | nil => rfl
  | cons y xs => rfl

theorem everyOther_sublist : (xs : List α) → (everyOther xs).Sublist xs
  | [] => .slnil
  | [_] => List.Sublist.refl _
  | x :: y :: xs => ((everyOther_sublist xs).cons y).cons_cons x

theorem length_everyOther : (xs : List α) → (everyOther xs).length = (xs.length + 1) / 2
  | [] => by rw [everyOther, List.length_nil]
  | [_] => by rw [everyOther, List.length_singleton]
  | x :: y :: xs => by
    rw [everyOther, List.length_cons, length_everyOther xs, List.length_cons, List.length_cons]
    omega

/-- What is left of each list when `skip` elements are dropped in all. -/
def restOf : ℕ → List (List α) → List (List α)
  | _, [] => []
  | skip, xs :: xss => xs.drop skip :: restOf (skip - xs.length) xss

theorem flatten_restOf (skip : ℕ) (xss : List (List α)) :
    (restOf skip xss).flatten = xss.flatten.drop skip := by
  induction xss generalizing skip with
  | nil => rw [restOf, List.flatten_nil, List.drop_nil]
  | cons xs xss ih =>
    rw [restOf, List.flatten_cons, List.flatten_cons, ih, List.drop_append]

/-- Every other element of what is left of each list. -/
def passedOf (skip : ℕ) (xss : List (List α)) : List α := (restOf skip xss).flatMap everyOther

theorem passedOf_cons (skip : ℕ) (xs : List α) (xss : List (List α)) :
    passedOf skip (xs :: xss) = everyOther (xs.drop skip) ++ passedOf (skip - xs.length) xss := by
  rw [passedOf, restOf, List.flatMap_cons]
  rfl

theorem passedOf_sublist (skip : ℕ) (xss : List (List α)) :
    (passedOf skip xss).Sublist (xss.flatten.drop skip) := by
  have hsub : (passedOf skip xss).Sublist ((restOf skip xss).flatMap id) :=
    List.Sublist.flatMap_right _ fun ys _ => everyOther_sublist ys
  rwa [List.flatMap_id, flatten_restOf] at hsub

end Lists

/-! ### The loops of `buddy_init` -/

theorem curOrderLoop_eq {left : ℕ} (h : 0 < left) (n : ℕ) : curOrderLoop left n 0 = 0 := by
  cases n with
  | zero => rfl
  | succ n =>
    refine if_neg fun hc => ?_
    have hlt : left < 1 := hc.1
    omega

/-- Freeing single pages, in order. -/
def freeSingles (s : BuddyState) (pfns : List ℕ) : BuddyState :=
  pfns.foldl (fun s pfn => s.freePages pfn 0) s

theorem freeSingles_append (s : BuddyState) (pfns pfns' : List ℕ) :
    freeSingles s (pfns ++ pfns') = freeSingles (freeSingles s pfns) pfns' := List.foldl_append

/-- The frames of a zone from the index `i` on. -/
def BuddyZone.framesFrom (zone : BuddyZone) (i : ℕ) : List ℕ :=
  List.range' (zone.pfnBase + i) (zone.size - i)

theorem BuddyZone.framesFrom_of_lt {zone : BuddyZone} {i : ℕ} (h : i < zone.size) :
    zone.framesFrom i = (zone.pfnBase + i) :: zone.framesFrom (i + 1) := by
  obtain ⟨n, hn⟩ : ∃ n, zone.size - i = n + 1 := ⟨zone.size - i - 1, by omega⟩
  have hn' : zone.size - (i + 1) = n := by omega
  rw [framesFrom, framesFrom, hn, hn', List.range'_succ]
  rfl

/-- What the loop over a zone does when `skip` pages are still to be skipped. -/
def InitState.pass (s : InitState) (skip : ℕ) (fs : List ℕ) : InitState where
  buddy := freeSingles s.buddy (everyOther (fs.drop skip))
  passed := s.passed ++ (everyOther (fs.drop skip)).map fun pfn => (pfn, 0)
  pageIdx := s.pageIdx + min skip fs.length + (everyOther (fs.drop skip)).length

theorem InitState.pass_nil (s : InitState) (skip : ℕ) : s.pass skip [] = s := by
  rw [pass, List.drop_nil]
  simp [everyOther, freeSingles]

/-- A page that the bump allocator took. -/
theorem InitState.pass_succ_cons (s : InitState) (skip x : ℕ) (fs : List ℕ) :
    s.pass (skip + 1) (x :: fs) = pass { s with pageIdx := s.pageIdx + 1 } skip fs := by
  rw [pass, pass, List.drop_succ_cons, List.length_cons, Nat.add_min_add_right]
  congr 1
  show s.pageIdx + (min skip fs.length + 1) + _ = s.pageIdx + 1 + min skip fs.length + _
  omega

/-- A page that is freed, and the page after it. -/
theorem InitState.pass_zero_cons (s : InitState) (x : ℕ) (fs : List ℕ) :
    s.pass 0 (x :: fs) =
      pass ⟨s.buddy.freePages x 0, s.passed ++ [(x, 0)], s.pageIdx + 1⟩ 0 fs.tail := by
  rw [pass, pass, List.drop_zero, List.drop_zero, everyOther_cons, Nat.zero_min, Nat.zero_min,
    List.map_cons, List.append_assoc, List.length_cons]
  congr 1
  show s.pageIdx + 0 + (_ + 1) = s.pageIdx + 1 + 0 + _
  omega

theorem InitState.le_pageIdx_pass (s : InitState) (skip : ℕ) (fs : List ℕ) :
    s.pageIdx + (everyOther (fs.drop skip)).length ≤ (s.pass skip fs).pageIdx := by
  rw [pass]
  show _ ≤ s.pageIdx + min skip fs.length + _
  omega

/-- An iteration that skips a page. -/
theorem zoneLoop_skip {bump n i : ℕ} {zone : BuddyZone} {s : InitState} (hi : i < zone.size)
    (hs : s.pageIdx < bump) :
    zoneLoop bump zone (n + 1) i s =
      if i + 1 < 2 ^ 31 ∧ s.pageIdx + 1 < 2 ^ 31 then
        zoneLoop bump zone n (i + 1) { s with pageIdx := s.pageIdx + 1 }
      else none := by
  rw [zoneLoop, if_pos hi, if_pos hs, intOf, intOf]
  by_cases hp : s.pageIdx + 1 < 2 ^ 31
  · by_cases hi' : i + 1 < 2 ^ 31
    · rw [if_pos hp, if_pos hi', if_pos ⟨hi', hp⟩]
      rfl
    · rw [if_pos hp, if_neg hi', if_neg fun h => hi' h.1]
      rfl
  · rw [if_neg hp, if_neg (c := _ ∧ s.pageIdx + 1 < 2 ^ 31) fun h => hp h.2]
    rfl

/-- An iteration that frees a page. It goes past the next one. -/
theorem zoneLoop_free {bump n i : ℕ} {zone : BuddyZone} {s : InitState} (hi : i < zone.size)
    (hs : ¬ s.pageIdx < bump) :
    zoneLoop bump zone (n + 1) i s =
      if i + 2 < 2 ^ 31 ∧ s.pageIdx + 1 < 2 ^ 31 then
        zoneLoop bump zone n (i + 2) ⟨s.buddy.freePages (zone.pfnBase + i) 0,
          s.passed ++ [(zone.pfnBase + i, 0)], s.pageIdx + 1⟩
      else none := by
  have hone : 1 <<< 0 = 1 := rfl
  rw [zoneLoop, if_pos hi, if_neg hs]
  simp only [curOrderLoop_eq (Nat.sub_pos_of_lt hi), hone, intOf]
  by_cases hp : s.pageIdx + 1 < 2 ^ 31
  · by_cases hi' : i + 1 + 1 < 2 ^ 31
    · have hi₁ : i + 1 < 2 ^ 31 := by omega
      rw [if_pos hp, if_pos hi₁, if_pos ⟨hi', hp⟩]
      show ((if i + 1 + 1 < 2 ^ 31 then some (i + 1 + 1) else none).bind fun _ => _) = _
      rw [if_pos hi']
      rfl
    · rw [if_pos hp, if_neg (c := i + 2 < 2 ^ 31 ∧ _) fun h => hi' h.1]
      by_cases hi₁ : i + 1 < 2 ^ 31
      · rw [if_pos hi₁]
        show ((if i + 1 + 1 < 2 ^ 31 then some (i + 1 + 1) else none).bind fun _ => _) = _
        rw [if_neg hi']
        rfl
      · rw [if_neg hi₁]
        rfl
  · rw [if_neg hp, if_neg (c := _ ∧ s.pageIdx + 1 < 2 ^ 31) fun h => hp h.2]
    rfl

/-- No counter overflows: the last value of `i` and of `page_idx`. -/
def ZoneFits (i skip : ℕ) (fs : List ℕ) (s : InitState) : Prop :=
  i + min skip fs.length + 2 * (everyOther (fs.drop skip)).length < 2 ^ 31 ∧
    (s.pass skip fs).pageIdx < 2 ^ 31

instance (i skip : ℕ) (fs : List ℕ) (s : InitState) : Decidable (ZoneFits i skip fs s) :=
  inferInstanceAs (Decidable (_ ∧ _))

/-- **The loop over a zone** skips what the bump allocator took and frees every other page of the
rest, unless a counter overflows. -/
theorem zoneLoop_eq {bump n i : ℕ} {zone : BuddyZone} {s : InitState} (hn : zone.size - i < n)
    (hi : i < 2 ^ 31) (hp : s.pageIdx < 2 ^ 31) :
    zoneLoop bump zone n i s =
      if ZoneFits i (bump - s.pageIdx) (zone.framesFrom i) s then
        some (s.pass (bump - s.pageIdx) (zone.framesFrom i))
      else none := by
  induction n generalizing i s with
  | zero => exact absurd hn (Nat.not_lt_zero _)
  | succ n ih =>
    by_cases hsize : i < zone.size
    · by_cases hskip : s.pageIdx < bump
      · obtain ⟨k, hk⟩ : ∃ k, bump - s.pageIdx = k + 1 := ⟨bump - s.pageIdx - 1, by omega⟩
        have hk' : bump - (s.pageIdx + 1) = k := by omega
        have hfits : ZoneFits i (k + 1) ((zone.pfnBase + i) :: zone.framesFrom (i + 1)) s ↔
            ZoneFits (i + 1) k (zone.framesFrom (i + 1)) { s with pageIdx := s.pageIdx + 1 } := by
          rw [ZoneFits, ZoneFits, s.pass_succ_cons, List.drop_succ_cons, List.length_cons,
            Nat.add_min_add_right]
          exact and_congr_left fun _ => by omega
        rw [zoneLoop_skip hsize hskip, zone.framesFrom_of_lt hsize, hk, s.pass_succ_cons,
          if_congr hfits rfl rfl, ← hk']
        by_cases hint : i + 1 < 2 ^ 31 ∧ s.pageIdx + 1 < 2 ^ 31
        · have hn' : zone.size - (i + 1) < n := by omega
          rw [if_pos hint]
          exact ih hn' hint.1 hint.2
        · rw [if_neg hint, if_neg]
          rintro ⟨hi', hp'⟩
          have hle : s.pageIdx + 1 + _ ≤ _ := InitState.le_pageIdx_pass
            { s with pageIdx := s.pageIdx + 1 } (bump - (s.pageIdx + 1)) (zone.framesFrom (i + 1))
          exact hint ⟨by omega, by omega⟩
      · have hk : bump - s.pageIdx = 0 := by omega
        have hk' : bump - (s.pageIdx + 1) = 0 := by omega
        have hrest : (zone.framesFrom (i + 1)).tail = zone.framesFrom (i + 2) := by
          rw [BuddyZone.framesFrom, BuddyZone.framesFrom, List.tail_range', Nat.sub_sub]
          rfl
        have hfits : ZoneFits i 0 ((zone.pfnBase + i) :: zone.framesFrom (i + 1)) s ↔
            ZoneFits (i + 2) 0 (zone.framesFrom (i + 2))
              ⟨s.buddy.freePages (zone.pfnBase + i) 0, s.passed ++ [(zone.pfnBase + i, 0)],
                s.pageIdx + 1⟩ := by
          rw [ZoneFits, ZoneFits, s.pass_zero_cons, hrest, List.drop_zero, List.drop_zero,
            everyOther_cons, hrest, Nat.zero_min, Nat.zero_min, List.length_cons]
          exact and_congr_left fun _ => by omega
        rw [zoneLoop_free hsize hskip, zone.framesFrom_of_lt hsize, hk, if_congr hfits rfl rfl,
          s.pass_zero_cons, hrest]
        by_cases hint : i + 2 < 2 ^ 31 ∧ s.pageIdx + 1 < 2 ^ 31
        · have hn' : zone.size - (i + 2) < n := by omega
          have hih := ih (s := ⟨s.buddy.freePages (zone.pfnBase + i) 0,
            s.passed ++ [(zone.pfnBase + i, 0)], s.pageIdx + 1⟩) hn' hint.1 hint.2
          rw [if_pos hint]
          rwa [hk'] at hih
        · rw [if_neg hint, if_neg]
          rintro ⟨hi', hp'⟩
          have hle : s.pageIdx + 1 + _ ≤ _ := InitState.le_pageIdx_pass
            ⟨s.buddy.freePages (zone.pfnBase + i) 0, s.passed ++ [(zone.pfnBase + i, 0)],
              s.pageIdx + 1⟩ 0 (zone.framesFrom (i + 2))
          exact hint ⟨by omega, by omega⟩
    · have hnil : zone.framesFrom i = [] := by
        rw [BuddyZone.framesFrom, Nat.sub_eq_zero_of_le (Nat.not_lt.mp hsize)]
        rfl
      rw [zoneLoop, if_neg hsize, hnil, s.pass_nil, if_pos]
      rw [ZoneFits, s.pass_nil, List.drop_nil, List.length_nil, Nat.min_zero]
      exact ⟨hi, hp⟩

/-- What the loop over the zones does, when the frames of the zones are `fss`. -/
def InitState.passAll (s : InitState) : ℕ → List (List ℕ) → InitState
  | _, [] => s
  | skip, fs :: fss => (s.pass skip fs).passAll (skip - fs.length) fss

/-- No counter overflows in any zone. -/
def ZonesFitInt (s : InitState) : ℕ → List (List ℕ) → Prop
  | _, [] => True
  | skip, fs :: fss => ZoneFits 0 skip fs s ∧ ZonesFitInt (s.pass skip fs) (skip - fs.length) fss

theorem passed_passAll (s : InitState) (skip : ℕ) (fss : List (List ℕ)) :
    (s.passAll skip fss).passed = s.passed ++ (passedOf skip fss).map fun pfn => (pfn, 0) := by
  induction fss generalizing s skip with
  | nil => rw [InitState.passAll, passedOf, restOf, List.flatMap_nil, List.map_nil, List.append_nil]
  | cons fs fss ih =>
    rw [InitState.passAll, ih, passedOf_cons, List.map_append, ← List.append_assoc]
    rfl

theorem buddy_passAll (s : InitState) (skip : ℕ) (fss : List (List ℕ)) :
    (s.passAll skip fss).buddy = freeSingles s.buddy (passedOf skip fss) := by
  induction fss generalizing s skip with
  | nil => rfl
  | cons fs fss ih =>
    rw [InitState.passAll, ih, passedOf_cons, freeSingles_append]
    rfl

/-- **The loop over the zones.** -/
theorem zonesLoop_eq {bump : ℕ} {zones : List BuddyZone} {s s' : InitState}
    (hp : s.pageIdx < 2 ^ 31) :
    zonesLoop bump zones s = some s' ↔
      ZonesFitInt s (bump - s.pageIdx) (zones.map fun z => z.framesFrom 0) ∧
        s.passAll (bump - s.pageIdx) (zones.map fun z => z.framesFrom 0) = s' := by
  induction zones generalizing s with
  | nil => simp [zonesLoop, ZonesFitInt, InitState.passAll]
  | cons zone zones ih =>
    have hlen : zone.size - 0 < zone.size + 1 := by omega
    have hskip : bump - (s.pass (bump - s.pageIdx) (zone.framesFrom 0)).pageIdx =
        bump - s.pageIdx - (zone.framesFrom 0).length := by
      rw [InitState.pass]
      show bump - (s.pageIdx + _ + _) = _
      have := length_everyOther ((zone.framesFrom 0).drop (bump - s.pageIdx))
      rw [List.length_drop] at this
      omega
    rw [zonesLoop, zoneLoop_eq hlen (by decide) hp, List.map_cons, ZonesFitInt, InitState.passAll]
    by_cases hfits : ZoneFits 0 (bump - s.pageIdx) (zone.framesFrom 0) s
    · rw [if_pos hfits, ← hskip, and_iff_right hfits]
      exact ih hfits.2
    · rw [if_neg hfits]
      constructor
      · intro h
        exact absurd h (by simp)
      · exact fun h => absurd h.1.1 hfits

/-- Small tables do not make a counter overflow. -/
theorem zonesFitInt_of_lt {s : InitState} {skip : ℕ} {fss : List (List ℕ)}
    (h : s.pageIdx + fss.flatten.length + 1 < 2 ^ 31) : ZonesFitInt s skip fss := by
  induction fss generalizing s skip with
  | nil => trivial
  | cons fs fss ih =>
    have hlen := length_everyOther (fs.drop skip)
    have hidx : (s.pass skip fs).pageIdx =
        s.pageIdx + min skip fs.length + (everyOther (fs.drop skip)).length := rfl
    rw [List.length_drop] at hlen
    rw [List.flatten_cons, List.length_append] at h
    have hle : (s.pass skip fs).pageIdx ≤ s.pageIdx + fs.length := by omega
    exact ⟨⟨by omega, by omega⟩, ih (by omega)⟩

/-! ### The two enumerations -/

/-- Regions whose pages an `unsigned int` counts. -/
def Counted (regions : List MemmapRegion) : Prop := ∀ r ∈ regions, r.size / pageSize < 2 ^ 32

theorem asUint_pages {r : MemmapRegion} (h : r.size / pageSize < 2 ^ 32) :
    asUint (r.size >>> 12) = r.size / pageSize := by
  rw [Nat.shiftRight_eq_div_pow]
  exact asUint_of_lt h

/-- The frames of the zones are those of the regions. -/
theorem framesFrom_zonesOf {regions : List MemmapRegion} (h : Counted regions) :
    (zonesOf regions).map (fun z => z.framesFrom 0) =
      regions.map MemmapRegion.frames ++ List.replicate (maxBuddyZones - regions.length) [] := by
  rw [zonesOf, List.map_append, List.map_map, List.map_replicate]
  refine congrArg₂ _ (List.map_congr_left fun r hr => ?_) rfl
  show List.range' (r.base >>> 12 + 0) (asUint (r.size >>> 12) - 0) = r.frames
  rw [asUint_pages (h r hr), Nat.shiftRight_eq_div_pow]
  rfl

/-- The frames of each zone. -/
def zoneFrames (regions : List MemmapRegion) : List (List ℕ) :=
  (zonesOf regions).map fun z => z.framesFrom 0

theorem flatten_zoneFrames {regions : List MemmapRegion} (h : Counted regions) :
    (zoneFrames regions).flatten = frames regions := by
  rw [zoneFrames, framesFrom_zonesOf h, List.flatten_append, List.flatten_replicate_nil,
    List.append_nil]
  rfl

/-- Where `buddy_init` starts. -/
def initState (regions : List MemmapRegion) : InitState :=
  ⟨{ zeroedBuddy with buddyZones := zonesOf regions }, [], 0⟩

/-- **`buddy_init`** passes every other page of what the bump allocator left of each zone. -/
theorem buddyInit_eq {regions : List MemmapRegion} {hhdm n : ℕ} {s : BootState} :
    (bootState regions hhdm n).buddyInit = some s ↔
      ZonesFitInt (initState regions) n (zoneFrames regions) ∧
        s = { bootState regions hhdm n with
          buddyInitialized := true
          buddy := freeSingles (initState regions).buddy (passedOf n (zoneFrames regions))
          passed := (passedOf n (zoneFrames regions)).map fun pfn => (pfn, 0) } := by
  have hzones {r : InitState} : zonesLoop n (zonesOf regions) (initState regions) = some r ↔
      ZonesFitInt (initState regions) n (zoneFrames regions) ∧
        (initState regions).passAll n (zoneFrames regions) = r :=
    zonesLoop_eq (show 0 < 2 ^ 31 by decide)
  have hbuddy := buddy_passAll (initState regions) n (zoneFrames regions)
  have hpassed := passed_passAll (initState regions) n (zoneFrames regions)
  rw [show (initState regions).passed = [] from rfl, List.nil_append] at hpassed
  rw [BootState.buddyInit, ← hbuddy, ← hpassed]
  show ((zonesLoop n (zonesOf regions) (initState regions)).bind fun r => _) = _ ↔ _
  rw [Option.bind_eq_some_iff]
  constructor
  · rintro ⟨r, hr, hs⟩
    obtain ⟨hfits, rfl⟩ := hzones.mp hr
    exact ⟨hfits, (Option.some.inj hs).symm⟩
  · rintro ⟨hfits, rfl⟩
    exact ⟨_, hzones.mpr ⟨hfits, rfl⟩, rfl⟩

/-- The addresses that the loop of `bump_page` computes for the pages of a region. -/
def MemmapRegion.bumpPhys (r : MemmapRegion) : List ℕ :=
  (List.range (asUint (r.size >>> 12))).map fun k => asUint r.base + asUint (k * pageSize)

/-- The addresses that the loop of `bump_page` computes, by index. -/
def bumpPhys (regions : List MemmapRegion) : List ℕ := regions.flatMap MemmapRegion.bumpPhys

/-- The address that `__va` makes of a sum. -/
def bumpVirt (hhdmOffset phys : ℕ) : ℕ := (phys + hhdmOffset) % 2 ^ 64

/-- **The loop of `bump_page`** finds the page with the given index. -/
theorem bumpLoop_eq {regions : List MemmapRegion} {n : ℕ} :
    bumpLoop n regions = (bumpPhys regions)[n]? := by
  induction regions generalizing n with
  | nil => rfl
  | cons r rs ih =>
    have hlen : r.bumpPhys.length = asUint (r.size >>> 12) :=
      (List.length_map _).trans List.length_range
    show _ = (r.bumpPhys ++ bumpPhys rs)[n]?
    rw [bumpLoop]
    split
    · next hlt =>
      rw [List.getElem?_append_left (hlen.symm ▸ hlt), MemmapRegion.bumpPhys, List.getElem?_map,
        List.getElem?_range hlt]
      rfl
    · next hge =>
      rw [List.getElem?_append_right (hlen.symm ▸ Nat.not_lt.mp hge), hlen]
      exact ih

/-- **`bump_page`**, when `n` pages are taken. -/
theorem bumpPage_eq (regions : List MemmapRegion) (hhdm n : ℕ) :
    (bootState regions hhdm n).bumpPage = some ((bumpPhys regions)[n]?.map (bumpVirt hhdm),
      bootState regions hhdm (if n < (bumpPhys regions).length then asUint (n + 1) else n)) := by
  have hinit : ¬ (bootState regions hhdm n).buddyInitialized = true := Bool.false_ne_true
  rw [BootState.bumpPage, if_neg hinit]
  show (match bumpLoop n regions with | some _ => _ | none => _) = _
  rw [bumpLoop_eq]
  split
  · next phys hphys =>
    rw [hphys, if_pos (List.getElem?_eq_some_iff.mp hphys).1]
    rfl
  · next hnone =>
    rw [hnone, if_neg (Nat.not_lt.mpr (List.getElem?_eq_none_iff.mp hnone))]
    rfl

/-- **`bump_page`**, called `k` times when `n` pages are taken, as long as they can be counted. -/
theorem bumpPages_eq (regions : List MemmapRegion) (hhdm : ℕ) {n : ℕ} (k : ℕ)
    (hn : n ≤ (bumpPhys regions).length) (hcount : min (n + k) (bumpPhys regions).length < 2 ^ 32) :
    (bootState regions hhdm n).bumpPages k =
      some ((((bumpPhys regions).drop n).take k).map (bumpVirt hhdm),
        bootState regions hhdm (min (n + k) (bumpPhys regions).length)) := by
  induction k generalizing n with
  | zero =>
    rw [Nat.add_zero, Nat.min_eq_left hn, List.take_zero]
    rfl
  | succ k ih =>
    rw [BootState.bumpPages, bumpPage_eq]
    show (BootState.bumpPages k (bootState regions hhdm (if _ then _ else _))).bind _ = _
    split
    · next hlt =>
      rw [asUint_of_lt (by omega), ih hlt (by omega), List.getElem?_eq_getElem hlt,
        List.drop_eq_getElem_cons hlt, List.take_succ_cons, List.map_cons,
        Nat.add_right_comm n 1 k]
      rfl
    · next hge =>
      rw [ih hn (by omega), List.getElem?_eq_none (Nat.not_lt.mp hge),
        List.drop_eq_nil_of_le (Nat.not_lt.mp hge), List.take_nil, List.take_nil,
        Nat.min_eq_right (by omega), Nat.min_eq_right (by omega)]
      rfl

/-- The addresses in the region fit the integers of `bump_page`. -/
def MemmapRegion.Low (r : MemmapRegion) : Prop := 0 < r.size → r.base < 2 ^ 32 ∧ r.size ≤ 2 ^ 32

theorem MemmapRegion.bumpPhys_eq {r : MemmapRegion} (h : pageSize ∣ r.base ∧ pageSize ∣ r.size)
    (hlow : r.Low) : r.bumpPhys = r.frames.map (· <<< 12) := by
  obtain ⟨⟨b, hb⟩, m, hm⟩ := h
  have hsize : r.size / pageSize = m := by rw [hm, Nat.mul_div_cancel_left _ (by decide)]
  have hbase : r.base / pageSize = b := by rw [hb, Nat.mul_div_cancel_left _ (by decide)]
  rw [Low] at hlow
  rw [show pageSize = 4096 from rfl] at hb hm
  rw [bumpPhys, asUint_pages (by omega), frames, hsize, hbase, List.range'_eq_map_range,
    List.map_map]
  refine List.map_congr_left fun k hk => ?_
  have hlt := List.mem_range.mp hk
  have hleft : asUint (k * 4096) = k * 4096 := asUint_of_lt (by omega)
  have hphys : asUint r.base = r.base := asUint_of_lt (by omega)
  rw [Function.comp_apply, Nat.shiftLeft_eq, show pageSize = 4096 from rfl, hleft, hphys]
  omega

/-- The addresses are those of the pages. -/
theorem bumpPhys_eq {regions : List MemmapRegion}
    (haligned : ∀ r ∈ regions, pageSize ∣ r.base ∧ pageSize ∣ r.size)
    (hlow : ∀ r ∈ regions, r.Low) : bumpPhys regions = (frames regions).map (· <<< 12) := by
  rw [bumpPhys, frames, List.map_flatMap]
  exact List.flatMap_congr fun r hr => r.bumpPhys_eq (haligned r hr) (hlow r hr)

/-! ### No page in common -/

theorem MemmapRegion.contains_iff {r : MemmapRegion} {pfn : ℕ} :
    r.Contains pfn ↔ r.base ≤ pfn * 4096 ∧ (pfn + 1) * 4096 ≤ r.base + r.size := Iff.rfl

theorem MemmapRegion.mem_frames {r : MemmapRegion} (h : pageSize ∣ r.base ∧ pageSize ∣ r.size)
    {pfn : ℕ} : pfn ∈ r.frames ↔ r.Contains pfn := by
  obtain ⟨⟨b, hb⟩, m, hm⟩ := h
  have hpage : pageSize = 4096 := rfl
  rw [frames, List.mem_range'_1, Contains, hb, hm, Nat.mul_div_cancel_left _ (by decide),
    Nat.mul_div_cancel_left _ (by decide), hpage]
  omega

theorem mem_frames {regions : List MemmapRegion} (hwf : RegionsWellFormed regions) {pfn : ℕ} :
    pfn ∈ frames regions ↔ ∃ r ∈ regions, r.Contains pfn := by
  rw [frames, List.mem_flatMap]
  refine exists_congr fun r => and_congr_right fun hr => ?_
  exact MemmapRegion.mem_frames (hwf.aligned r hr)

/-- No frame is in two regions. -/
theorem RegionsWellFormed.nodup_frames {regions : List MemmapRegion} (hwf : RegionsWellFormed regions) :
    (frames regions).Nodup := by
  refine List.nodup_flatMap.mpr ⟨fun r _ => List.nodup_range', ?_⟩
  refine List.Pairwise.imp_of_mem (fun {r r'} hr hr' hd pfn h h' => ?_) hwf.disj
  have hc := (MemmapRegion.mem_frames (hwf.aligned r hr)).mp h
  have hc' := (MemmapRegion.mem_frames (hwf.aligned r' hr')).mp h'
  rw [MemmapRegion.contains_iff] at hc hc'
  omega

/-- Below 4 GiB there are at most `2 ^ 20` pages. -/
theorem RegionsWellFormed.length_frames_le {regions : List MemmapRegion} (hwf : RegionsWellFormed regions)
    (hlow : ∀ r ∈ regions, r.base + r.size ≤ 2 ^ 32) :
    (∀ pfn ∈ frames regions, pfn < 2 ^ 20) ∧ (frames regions).length ≤ 2 ^ 20 := by
  have hlt : ∀ pfn ∈ frames regions, pfn < 2 ^ 20 := by
    intro pfn hpfn
    obtain ⟨r, hr, hc⟩ := (mem_frames hwf).mp hpfn
    have := hlow r hr
    rw [MemmapRegion.contains_iff] at hc
    omega
  have hsub : frames regions ⊆ List.range (2 ^ 20) := fun pfn hpfn => List.mem_range.mpr (hlt pfn hpfn)
  have hlen := (hwf.nodup_frames.subperm hsub).length_le
  rw [List.length_range] at hlen
  exact ⟨hlt, hlen⟩

/-- **Who owns what.** For every table of regions below 4 GiB and every number of `bump_page` calls
before `buddy_init`: no page that they return is in a block that is passed to `free_pages`, every
page of such a block lies in a region, and no two blocks overlap. -/
theorem bump_buddyInit_disjoint {regions : List MemmapRegion} (hhdm calls : ℕ)
    (hwf : RegionsWellFormed regions) (hlow : ∀ r ∈ regions, r.base + r.size ≤ 2 ^ 32) :
    ∃ pages s s', (bootState regions hhdm 0).bumpPages calls = some (pages, s) ∧
      s.buddyInit = some s' ∧
      (∀ b ∈ s'.passed, ∀ pfn ∈ Dyadic.block b.1 b.2,
        pfnToVirt hhdm pfn ∉ pages ∧ ∃ r ∈ regions, r.Contains pfn) ∧
      s'.passed.Pairwise fun b b' => Disjoint (Dyadic.block b.1 b.2) (Dyadic.block b'.1 b'.2) := by
  obtain ⟨hlt, hlen⟩ := hwf.length_frames_le hlow
  have hcounted : Counted regions := by
    intro r hr
    have := hlow r hr
    rw [show pageSize = 4096 from rfl]
    omega
  have hflat := flatten_zoneFrames hcounted
  have hphys := bumpPhys_eq hwf.aligned fun r hr hsize => by
    have := hlow r hr
    omega
  have hlength : (bumpPhys regions).length = (frames regions).length := by
    rw [hphys, List.length_map]
  have hpages := bumpPages_eq regions hhdm calls (Nat.zero_le _) (by omega)
  rw [hlength, hphys, List.drop_zero, Nat.zero_add, ← List.map_take, List.map_map,
    show bumpVirt hhdm ∘ (· <<< 12) = pfnToVirt hhdm from rfl] at hpages
  have hfits : ZonesFitInt (initState regions) (min calls (frames regions).length)
      (zoneFrames regions) := by
    refine zonesFitInt_of_lt ?_
    rw [hflat]
    show 0 + _ + 1 < _
    omega
  have hsub := passedOf_sublist (min calls (frames regions).length) (zoneFrames regions)
  rw [hflat] at hsub
  have hnd := hwf.nodup_frames
  -- a block of order 0 is one page
  have hmem : ∀ b ∈ (passedOf (min calls (frames regions).length) (zoneFrames regions)).map
      fun pfn => (pfn, 0), ∀ pfn ∈ Dyadic.block b.1 b.2,
        pfn ∈ passedOf (min calls (frames regions).length) (zoneFrames regions) := by
    intro b hb pfn hpfn
    obtain ⟨p, hp, rfl⟩ := List.mem_map.mp hb
    obtain rfl : p = pfn := by
      obtain ⟨hle, hlt⟩ := Dyadic.mem_block.mp hpfn
      exact Nat.le_antisymm hle (Nat.lt_succ_iff.mp hlt)
    exact hp
  refine ⟨_, _, _, hpages, buddyInit_eq.mpr ⟨hfits, rfl⟩, fun b hb pfn hpfn => ?_, ?_⟩
  · have hpassed := hsub.subset (hmem b hb pfn hpfn)
    have hframe := List.mem_of_mem_drop hpassed
    refine ⟨fun hpage => ?_, (mem_frames hwf).mp hframe⟩
    obtain ⟨q, hq, heq⟩ := List.mem_map.mp hpage
    obtain rfl : q = pfn := by
      have hq' := hlt q (List.mem_of_mem_take hq)
      have hpfn' := hlt pfn hframe
      rw [pfnToVirt, pfnToVirt, Nat.shiftLeft_eq, Nat.shiftLeft_eq] at heq
      omega
    rcases Nat.le_total calls (frames regions).length with hle | hle
    · rw [Nat.min_eq_left hle] at hpassed
      exact List.disjoint_take_drop hnd (Nat.le_refl calls) hq hpassed
    · rw [Nat.min_eq_right hle, List.drop_length] at hpassed
      exact List.not_mem_nil hpassed
  · have hpair : (passedOf (min calls (frames regions).length) (zoneFrames regions)).Pairwise
        fun p q => Disjoint (Dyadic.block p 0) (Dyadic.block q 0) := by
      refine (hnd.sublist (hsub.trans (List.drop_sublist _ _))).imp fun {p q} hne => ?_
      refine Set.disjoint_left.mpr fun r hp hq => hne ?_
      have hp := Dyadic.mem_block.mp hp
      have hq := Dyadic.mem_block.mp hq
      omega
    exact List.pairwise_map.mpr hpair

/-- Two pages at `0x1000`, and three at `0x5000`. -/
def twoRegions : List MemmapRegion := [⟨0x1000, 0x2000⟩, ⟨0x5000, 0x3000⟩]

theorem wellFormed_twoRegions : RegionsWellFormed twoRegions where
  count := by decide
  aligned := by decide
  top := by decide
  disj := by decide

/-- The two pages of the first region and one of the second are taken. -/
theorem bump_buddyInit_disjoint_twoRegions :
    ∃ pages s s', (bootState twoRegions 0 0).bumpPages 3 = some (pages, s) ∧
      s.buddyInit = some s' ∧
      (∀ b ∈ s'.passed, ∀ pfn ∈ Dyadic.block b.1 b.2,
        pfnToVirt 0 pfn ∉ pages ∧ ∃ r ∈ twoRegions, r.Contains pfn) ∧
      s'.passed.Pairwise fun b b' => Disjoint (Dyadic.block b.1 b.2) (Dyadic.block b'.1 b'.2) :=
  bump_buddyInit_disjoint 0 3 wellFormed_twoRegions (by decide)

end GoofyOs
