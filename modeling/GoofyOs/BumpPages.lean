import GoofyOs.BuddyInit
import Mathlib.Algebra.Order.BigOperators.Group.List

/-!
# The pages of the bump allocator

`bump_page` computes the address of a page from the base of its region and the index of the page in
the region, both as `unsigned int`s. What is truncated comes out too small. The addresses of all
pages add up to more than what is returned then, so `bump_page` cannot hand out every page once
by a different way, and one truncated address is enough to spoil a table.

## Main definitions

* `UsablePage` — the addresses of the pages of a table
* `BumpCorrect` — what is asked of `bump_page`

## Main results

* `bumpPhys_eq_iff` — the tables without a truncated address
* `bumpPage_correct_iff` — they are those for which `bump_page` does what is asked
-/

namespace GoofyOs

/-- The address of a page in a region, in the direct map. -/
def UsablePage (regions : List MemmapRegion) (hhdm addr : ℕ) : Prop :=
  ∃ r ∈ regions, ∃ k, (k + 1) * pageSize ≤ r.size ∧ addr = (r.base + k * pageSize + hhdm) % 2 ^ 64

/-- From boot on, `bump_page` hands out distinct pages of the regions, and null only when there are
no others. -/
structure BumpCorrect (regions : List MemmapRegion) (hhdm : ℕ) : Prop where
  distinct : ∀ n pages s, (bootState regions hhdm 0).bumpPages n = some (pages, s) → pages.Nodup
  inside : ∀ n pages s, (bootState regions hhdm 0).bumpPages n = some (pages, s) →
    ∀ page ∈ pages, UsablePage regions hhdm page
  null : ∀ n pages s s', (bootState regions hhdm 0).bumpPages n = some (pages, s) →
    s.bumpPage = some (none, s') → ∀ addr, UsablePage regions hhdm addr → addr ∈ pages

/-! ### Lists of the same sum -/

/-- Elements that are not larger, and add up to the same, are the same. -/
theorem forall₂_eq_of_sum_eq {xs ys : List ℕ} (h : List.Forall₂ (· ≤ ·) xs ys)
    (hsum : xs.sum = ys.sum) : xs = ys := by
  induction h with
  | nil => rfl
  | cons hle hrest ih =>
    have hsums := hrest.sum_le_sum
    rw [List.sum_cons, List.sum_cons] at hsum
    obtain rfl := ih (by omega)
    rw [Nat.add_right_cancel hsum]

/-! ### The addresses of a region -/

variable {regions : List MemmapRegion} {r : MemmapRegion} {hhdm n a b : ℕ}

namespace MemmapRegion

theorem length_bumpPhys (r : MemmapRegion) : r.bumpPhys.length = asUint (r.size >>> 12) :=
  (List.length_map _).trans List.length_range

theorem length_frames (r : MemmapRegion) : r.frames.length = r.size / pageSize :=
  List.length_range'

theorem length_bumpPhys_le (r : MemmapRegion) : r.bumpPhys.length ≤ r.frames.length := by
  rw [length_bumpPhys, length_frames, asUint, Nat.shiftRight_eq_div_pow]
  exact Nat.mod_le _ _

theorem getElem_bumpPhys {k : ℕ} (h : k < r.bumpPhys.length) :
    r.bumpPhys[k] = asUint r.base + asUint (k * 4096) := by
  simp only [bumpPhys, List.getElem_map, List.getElem_range]
  rfl

theorem getElem_frames (hr : pageSize ∣ r.base) {k : ℕ}
    (h : k < (r.frames.map (· <<< 12)).length) :
    (r.frames.map (· <<< 12))[k] = r.base + k * 4096 := by
  obtain ⟨b, hb⟩ := hr
  simp only [frames, List.getElem_map, List.getElem_range', Nat.shiftLeft_eq]
  rw [hb, Nat.mul_div_cancel_left _ (by decide), show pageSize = 4096 from rfl]
  omega

/-- No address comes out too large. -/
theorem bumpPhys_le (hr : pageSize ∣ r.base) (hlen : r.bumpPhys.length = r.frames.length) :
    List.Forall₂ (· ≤ ·) r.bumpPhys (r.frames.map (· <<< 12)) := by
  rw [List.forall₂_iff_get]
  refine ⟨by rw [hlen, List.length_map], fun k hk hk' => ?_⟩
  rw [List.get_eq_getElem, List.get_eq_getElem, getElem_bumpPhys, getElem_frames hr, asUint, asUint]
  omega

/-- The first and the last address of a region tell whether any is truncated. -/
theorem low_of_bumpPhys_eq (hr : pageSize ∣ r.base ∧ pageSize ∣ r.size)
    (h : r.bumpPhys = r.frames.map (· <<< 12)) : r.Low := by
  intro hpos
  have hlen : r.bumpPhys.length = r.size / pageSize := by
    rw [h, List.length_map, length_frames]
  have hget : ∀ k < r.size / pageSize,
      asUint r.base + asUint (k * 4096) = r.base + k * 4096 := by
    intro k hk
    have hk' : k < r.bumpPhys.length := hlen ▸ hk
    have hmap : k < (r.frames.map (· <<< 12)).length := h ▸ hk'
    rw [← getElem_bumpPhys hk', ← getElem_frames hr.1 hmap]
    exact List.getElem_of_eq h hk'
  obtain ⟨m, hm⟩ := hr.2
  rw [hm, Nat.mul_div_cancel_left _ (by decide)] at hget
  rw [show pageSize = 4096 from rfl] at hm
  have hfirst := hget 0 (by omega)
  have hlast := hget (m - 1) (by omega)
  rw [asUint, asUint] at hfirst hlast
  omega

end MemmapRegion

/-! ### The addresses of a table -/

/-- There are no more addresses than pages. -/
theorem length_bumpPhys_le (regions : List MemmapRegion) :
    (bumpPhys regions).length ≤ (frames regions).length := by
  induction regions with
  | nil => exact le_rfl
  | cons r rs ih =>
    show (r.bumpPhys ++ bumpPhys rs).length ≤ (r.frames ++ frames rs).length
    rw [List.length_append, List.length_append]
    exact Nat.add_le_add r.length_bumpPhys_le ih

theorem bumpPhys_le (haligned : ∀ r ∈ regions, pageSize ∣ r.base ∧ pageSize ∣ r.size)
    (hlen : (bumpPhys regions).length = (frames regions).length) :
    List.Forall₂ (· ≤ ·) (bumpPhys regions) ((frames regions).map (· <<< 12)) := by
  induction regions with
  | nil => exact .nil
  | cons r rs ih =>
    obtain ⟨hr, hrs⟩ := List.forall_mem_cons.mp haligned
    have hle := r.length_bumpPhys_le
    have hles := length_bumpPhys_le rs
    have hsum : (r.bumpPhys ++ bumpPhys rs).length = (r.frames ++ frames rs).length := hlen
    rw [List.length_append, List.length_append] at hsum
    show List.Forall₂ _ (r.bumpPhys ++ bumpPhys rs) ((r.frames ++ frames rs).map _)
    rw [List.map_append]
    exact List.rel_append (r.bumpPhys_le hr.1 (by omega)) (ih hrs (by omega))

/-- **The tables without a truncated address.** -/
theorem bumpPhys_eq_iff (haligned : ∀ r ∈ regions, pageSize ∣ r.base ∧ pageSize ∣ r.size) :
    bumpPhys regions = (frames regions).map (· <<< 12) ↔ ∀ r ∈ regions, r.Low := by
  refine ⟨fun h => ?_, bumpPhys_eq haligned⟩
  induction regions with
  | nil => exact fun r hr => absurd hr List.not_mem_nil
  | cons r rs ih =>
    obtain ⟨hr, hrs⟩ := List.forall_mem_cons.mp haligned
    have hle := r.length_bumpPhys_le
    have hles := length_bumpPhys_le rs
    have hboth : r.bumpPhys ++ bumpPhys rs =
        r.frames.map (· <<< 12) ++ (frames rs).map (· <<< 12) := h.trans List.map_append
    have hlen := congrArg List.length hboth
    simp only [List.length_append, List.length_map] at hlen
    obtain ⟨hfirst, hrest⟩ := List.append_inj hboth (by rw [List.length_map]; omega)
    exact List.forall_mem_cons.mpr ⟨r.low_of_bumpPhys_eq hr hfirst, ih hrs hrest⟩

/-- Truncation cannot permute the pages. -/
theorem bumpPhys_eq_of_perm (haligned : ∀ r ∈ regions, pageSize ∣ r.base ∧ pageSize ∣ r.size)
    (h : (bumpPhys regions).Perm ((frames regions).map (· <<< 12))) :
    bumpPhys regions = (frames regions).map (· <<< 12) :=
  forall₂_eq_of_sum_eq (bumpPhys_le haligned (h.length_eq.trans (List.length_map _))) h.sum_eq

/-- What `bump_page` computes is the address of a page below `2 ^ 33`. -/
theorem mem_bumpPhys (haligned : ∀ r ∈ regions, pageSize ∣ r.base ∧ pageSize ∣ r.size)
    (ha : a ∈ bumpPhys regions) : 4096 ∣ a ∧ a < 2 ^ 33 := by
  obtain ⟨r, hr, ha⟩ := List.mem_flatMap.mp ha
  obtain ⟨k, -, rfl⟩ := List.mem_map.mp ha
  have hbase := (haligned r hr).1
  rw [show pageSize = 4096 from rfl] at hbase ⊢
  rw [asUint, asUint]
  omega

theorem bumpVirt_inj (ha : a < 2 ^ 64) (hb : b < 2 ^ 64) :
    bumpVirt hhdm a = bumpVirt hhdm b ↔ a = b := by
  rw [bumpVirt, bumpVirt]
  omega

/-- The pages of a table, by frame. -/
theorem usablePage_iff (hwf : RegionsWellFormed regions) {addr : ℕ} :
    UsablePage regions hhdm addr ↔ ∃ pfn ∈ frames regions, addr = bumpVirt hhdm (pfn <<< 12) := by
  simp only [UsablePage, show pageSize = 4096 from rfl]
  constructor
  · rintro ⟨r, hr, k, hk, rfl⟩
    obtain ⟨b, hb⟩ : 4096 ∣ r.base := (hwf.aligned r hr).1
    refine ⟨b + k, (mem_frames hwf).mpr ⟨r, hr, ?_⟩, ?_⟩
    · rw [MemmapRegion.contains_iff]
      omega
    · rw [bumpVirt, Nat.shiftLeft_eq, hb]
      congr 2
      omega
  · rintro ⟨pfn, hpfn, rfl⟩
    obtain ⟨r, hr, hc⟩ := (mem_frames hwf).mp hpfn
    obtain ⟨b, hb⟩ : 4096 ∣ r.base := (hwf.aligned r hr).1
    rw [MemmapRegion.contains_iff] at hc
    refine ⟨r, hr, pfn - b, by omega, ?_⟩
    rw [bumpVirt, Nat.shiftLeft_eq, hb]
    congr 2
    omega

theorem shiftLeft_lt_of_mem_frames (hwf : RegionsWellFormed regions) {pfn : ℕ}
    (h : pfn ∈ frames regions) : pfn <<< 12 < 2 ^ 64 := by
  obtain ⟨r, hr, hc⟩ := (mem_frames hwf).mp h
  have htop := hwf.top r hr
  rw [MemmapRegion.contains_iff] at hc
  rw [Nat.shiftLeft_eq]
  omega

theorem nodup_shiftLeft_frames (hwf : RegionsWellFormed regions) :
    ((frames regions).map (· <<< 12)).Nodup := by
  refine hwf.nodup_frames.map fun p q h => ?_
  rw [Nat.shiftLeft_eq, Nat.shiftLeft_eq] at h
  omega

/-! ### The calls -/

/-- The first calls, as many as there are addresses. -/
theorem bumpPages_all (regions : List MemmapRegion) (hhdm : ℕ)
    (hlen : (bumpPhys regions).length < 2 ^ 32) (hn : n = (bumpPhys regions).length) :
    (bootState regions hhdm 0).bumpPages n =
      some ((bumpPhys regions).map (bumpVirt hhdm), bootState regions hhdm n) ∧
    (bootState regions hhdm n).bumpPage = some (none, bootState regions hhdm n) := by
  subst hn
  constructor
  · rw [bumpPages_eq regions hhdm _ (Nat.zero_le _) (by omega), List.drop_zero, List.take_length,
      Nat.zero_add, Nat.min_self]
  · rw [bumpPage_eq, List.getElem?_eq_none le_rfl, if_neg (Nat.lt_irrefl _)]
    rfl

namespace BumpCorrect

/-- The addresses are the same again after `2 ^ 21` pages at the latest. -/
theorem length_le (h : BumpCorrect regions hhdm) (hwf : RegionsWellFormed regions) :
    (bumpPhys regions).length ≤ 2 ^ 21 := by
  by_contra hlong
  have hrun := bumpPages_eq regions hhdm (2 ^ 21 + 1) (Nat.zero_le _) (by omega)
  have hnd := (h.distinct _ _ _ hrun).of_map
  rw [List.drop_zero] at hnd
  have hmem : ∀ a ∈ (bumpPhys regions).take (2 ^ 21 + 1), 4096 ∣ a ∧ a < 2 ^ 33 :=
    fun a ha => mem_bumpPhys hwf.aligned (List.mem_of_mem_take ha)
  have hdiv : (((bumpPhys regions).take (2 ^ 21 + 1)).map (· / 4096)).Nodup := by
    refine List.Nodup.map_on (fun a ha b hb heq => ?_) hnd
    have ha' := hmem a ha
    have hb' := hmem b hb
    omega
  have hsub : ((bumpPhys regions).take (2 ^ 21 + 1)).map (· / 4096) ⊆ List.range (2 ^ 21) := by
    intro q hq
    obtain ⟨a, ha, rfl⟩ := List.mem_map.mp hq
    have ha' := hmem a ha
    rw [List.mem_range]
    omega
  have hle := (hdiv.subperm hsub).length_le
  rw [List.length_map, List.length_take, List.length_range] at hle
  omega

/-- Every page is handed out once. -/
theorem perm (h : BumpCorrect regions hhdm) (hwf : RegionsWellFormed regions) :
    (bumpPhys regions).Perm ((frames regions).map (· <<< 12)) := by
  have hlen := h.length_le hwf
  obtain ⟨hrun, hnull⟩ := bumpPages_all regions hhdm (by omega) rfl
  have hphys : ∀ a ∈ bumpPhys regions, a < 2 ^ 64 := fun a ha => by
    have ha' := (mem_bumpPhys hwf.aligned ha).2
    omega
  rw [List.perm_ext_iff_of_nodup (h.distinct _ _ _ hrun).of_map (nodup_shiftLeft_frames hwf)]
  intro a
  constructor
  · intro ha
    obtain ⟨pfn, hpfn, heq⟩ := (usablePage_iff hwf).mp
      (h.inside _ _ _ hrun _ (List.mem_map_of_mem ha))
    rw [bumpVirt_inj (hphys a ha) (shiftLeft_lt_of_mem_frames hwf hpfn)] at heq
    exact heq ▸ List.mem_map_of_mem hpfn
  · intro ha
    obtain ⟨pfn, hpfn, rfl⟩ := List.mem_map.mp ha
    obtain ⟨b, hb, heq⟩ := List.mem_map.mp
      (h.null _ _ _ _ hrun hnull _ ((usablePage_iff hwf).mpr ⟨pfn, hpfn, rfl⟩))
    rw [bumpVirt_inj (hphys b hb) (shiftLeft_lt_of_mem_frames hwf hpfn)] at heq
    exact heq ▸ hb

end BumpCorrect

/-- Without a truncated address, there are no more pages than `bump_allocated` can count. -/
theorem length_frames_le (hwf : RegionsWellFormed regions)
    (h : bumpPhys regions = (frames regions).map (· <<< 12)) :
    (frames regions).length ≤ 2 ^ 21 := by
  have hsub : frames regions ⊆ List.range (2 ^ 21) := by
    intro pfn hpfn
    have hmem : pfn <<< 12 ∈ bumpPhys regions := h ▸ List.mem_map_of_mem hpfn
    have hlt := (mem_bumpPhys hwf.aligned hmem).2
    rw [Nat.shiftLeft_eq] at hlt
    rw [List.mem_range]
    omega
  have hle := (hwf.nodup_frames.subperm hsub).length_le
  rwa [List.length_range] at hle

/-- **The bump allocator.** The calls of `bump_page` return distinct pages of the regions, and null
only when all pages were handed out, just when every region that is not empty begins below 4 GiB
and is at most 4 GiB long. -/
theorem bumpPage_correct_iff (regions : List MemmapRegion) (hhdm : ℕ)
    (hwf : RegionsWellFormed regions) : BumpCorrect regions hhdm ↔
      ∀ r ∈ regions, 0 < r.size → r.base < 2 ^ 32 ∧ r.size ≤ 2 ^ 32 := by
  show _ ↔ ∀ r ∈ regions, r.Low
  rw [← bumpPhys_eq_iff hwf.aligned]
  refine ⟨fun h => bumpPhys_eq_of_perm hwf.aligned (h.perm hwf), fun h => ?_⟩
  have hlen : (bumpPhys regions).length = (frames regions).length := by rw [h, List.length_map]
  have hle := length_frames_le hwf h
  have hvirt : ∀ a ∈ bumpPhys regions, a < 2 ^ 64 := fun a ha => by
    have ha' := (mem_bumpPhys hwf.aligned ha).2
    omega
  have hrun : ∀ {n pages s}, (bootState regions hhdm 0).bumpPages n = some (pages, s) →
      pages = ((bumpPhys regions).take n).map (bumpVirt hhdm) ∧
        s = bootState regions hhdm (min n (bumpPhys regions).length) := by
    intro n pages s hpages
    rw [bumpPages_eq regions hhdm n (Nat.zero_le _) (by omega), List.drop_zero,
      Nat.zero_add] at hpages
    obtain ⟨rfl, rfl⟩ := Prod.mk.inj (Option.some.inj hpages)
    exact ⟨rfl, rfl⟩
  refine ⟨fun n pages s hpages => ?_, fun n pages s hpages page hpage => ?_,
    fun n pages s s' hpages hnull addr haddr => ?_⟩
  · obtain ⟨rfl, -⟩ := hrun hpages
    refine List.Nodup.map_on (fun a ha b hb heq => ?_)
      ((h ▸ nodup_shiftLeft_frames hwf : (bumpPhys regions).Nodup).sublist (List.take_sublist _ _))
    exact (bumpVirt_inj (hvirt a (List.mem_of_mem_take ha))
      (hvirt b (List.mem_of_mem_take hb))).mp heq
  · obtain ⟨rfl, -⟩ := hrun hpages
    obtain ⟨a, ha, rfl⟩ := List.mem_map.mp hpage
    obtain ⟨pfn, hpfn, rfl⟩ := List.mem_map.mp (h ▸ List.mem_of_mem_take ha)
    exact (usablePage_iff hwf).mpr ⟨pfn, hpfn, rfl⟩
  · obtain ⟨rfl, rfl⟩ := hrun hpages
    -- null is returned only at the end of the table
    have hend : (bumpPhys regions).length ≤ n := by
      by_contra hlt
      rw [bumpPage_eq, Nat.min_eq_left (by omega), List.getElem?_eq_getElem (by omega)] at hnull
      cases congrArg Prod.fst (Option.some.inj hnull)
    obtain ⟨pfn, hpfn, rfl⟩ := (usablePage_iff hwf).mp haddr
    rw [List.take_of_length_le hend, h]
    exact List.mem_map_of_mem (List.mem_map_of_mem hpfn)

/-- Two regions below 4 GiB. -/
theorem bumpPage_correct_iff_twoRegions : BumpCorrect twoRegions 0xffff800000000000 :=
  (bumpPage_correct_iff _ _ wellFormed_twoRegions).mpr (by decide)

/-- A page at 4 GiB. -/
def highRegion : List MemmapRegion := [⟨0x100000000, 0x1000⟩]

/-- `bump_page` returns the page at address zero instead. -/
theorem not_bumpPage_correct : ¬ ∀ (regions : List MemmapRegion) (hhdm : ℕ),
    RegionsWellFormed regions → BumpCorrect regions hhdm := by
  intro h
  have hwf : RegionsWellFormed highRegion :=
    { count := by decide
      aligned := by decide
      top := by decide
      disj := by decide }
  obtain ⟨r, hr, k, hk, heq⟩ := (h highRegion 0 hwf).inside 1 [0] (bootState highRegion 0 1) rfl 0
    List.mem_cons_self
  obtain rfl := List.mem_singleton.mp hr
  rw [show pageSize = 4096 from rfl] at hk heq
  simp only at hk heq
  omega

end GoofyOs
