import GoofyOs.BuddyInitLoss
import GoofyOs.ForMathlib.DyadicFamily

/-!
# The coalescing free

`free_pages_nolock` over free lists that are sequences of frame numbers: removing a page erases it
and pushing it is a `cons`. What the link fields add to this is `list.h`'s, and `BuddyRun` says
when they get in the way; here it is the flags, the orders, the counts and the merging that matter.
The recursion has no bound in the source, so a call that needs more depth than it is given has the
outcome `none`.

## Main definitions

* `BuddySeqs` — the allocator's state with the free lists as sequences
* `BuddySeqs.Consistent` — disjoint aligned zone blocks, flags, orders and counts that agree with
  the lists, and no two listed buddies of an order below `MAX_ORDER`
* `BuddySeqs.WellListed`, `BuddySeqs.WellMarked` — the parts of it that do not need the zones
* `BuddySeqs.Abstracts` — the lists of a `BuddyState` visit the sequences

## Main results

* `BuddySeqs.free_pages_consistent` — a free returns in a consistent state, with the block added to
  the free pages
* `BuddySeqs.Abstracts.freePagesAux` — on properly linked lists the code does what is said here
-/

namespace GoofyOs

open LinkedList ListHead

/-- The memory the buddy allocator works on, with the free lists as sequences. -/
structure BuddySeqs where
  lists : ℕ → List ℕ
  count : ℕ → ℕ
  /-- `page->flags` -/
  flags : ℕ → BitVec 64
  /-- `page->buddy_order` -/
  buddyOrder : ℕ → ℕ
  buddyZones : List BuddyZone

namespace BuddySeqs

variable (s : BuddySeqs)

/-- `valid_buddy_pfn`. -/
def validBuddyPfn (pfn : ℕ) : Bool :=
  s.buddyZones.any fun z => z.pfnBase ≤ pfn && pfn < z.pfnBase + z.size

/-- `page->flags & PAGE_FLAG_FREE`. -/
def IsFree (page : ℕ) : Prop := s.flags page &&& pageFlagFree ≠ 0

instance (page : ℕ) : Decidable (s.IsFree page) := inferInstanceAs (Decidable (_ ≠ _))

/-- `remove_from_freelist`. -/
def removeFromFreelist (page : ℕ) : BuddySeqs :=
  let order := s.buddyOrder page
  { s with
    lists := Function.update s.lists order ((s.lists order).erase page)
    count := Function.update s.count order (asUint (s.count order + (2 ^ 32 - 1)))
    flags := Function.update s.flags page (s.flags page &&& ~~~pageFlagFree) }

/-- The tail of `free_pages_nolock` at the label `direct_free`. -/
def directFree (page order : ℕ) : BuddySeqs :=
  { s with
    lists := Function.update s.lists order (page :: s.lists order)
    count := Function.update s.count order (asUint (s.count order + 1))
    flags := Function.update s.flags page (s.flags page ||| pageFlagFree)
    buddyOrder := Function.update s.buddyOrder page order }

/-- `free_pages_nolock`, with a bound on the depth of the recursion. -/
def freePagesAux : ℕ → BuddySeqs → ℕ → ℕ → Option BuddySeqs
  | 0, _, _, _ => none
  | n + 1, s, pfn, order =>
    let buddyPfn := asUint (getBuddy pfn order)
    if s.validBuddyPfn buddyPfn = false then some (s.directFree pfn order)
    else if ¬ s.IsFree buddyPfn then some (s.directFree pfn order)
    else if s.buddyOrder buddyPfn ≠ order then some (s.directFree pfn order)
    else if s.buddyOrder buddyPfn = maxOrder then some (s.directFree pfn order)
    else
      let s := s.removeFromFreelist buddyPfn
      if buddyPfn > pfn then freePagesAux n s pfn (order + 1)
      else freePagesAux n s buddyPfn (order + 1)

/-- The page at frame `b` passes the four tests before a merge at `order`. -/
def MergeTest (b order : ℕ) : Prop :=
  s.validBuddyPfn b = true ∧ s.IsFree b ∧ s.buddyOrder b = order ∧ order ≠ maxOrder

/-- The listed blocks, each with its order. -/
def blocks : Set (ℕ × ℕ) := listedBlocks s.lists

/-- The pages of the listed blocks. -/
def freePages : Set ℕ := Dyadic.cover s.blocks

/-- **Consistent.** The lists hold disjoint blocks of zone pages, each aligned to its order and no
two of them buddies below `MAX_ORDER`; `PAGE_FLAG_FREE`, `buddy_order` and the counts agree with
the lists. -/
structure Consistent : Prop where
  nodup : ∀ k, (s.lists k).Nodup
  merged : Dyadic.Merged maxOrder s.blocks
  zone : ∀ q ∈ s.freePages, s.validBuddyPfn q = true
  free : ∀ p, s.IsFree p ↔ ∃ k, p ∈ s.lists k
  order : ∀ {p k}, p ∈ s.lists k → s.buddyOrder p = k
  count : ∀ k ≤ maxOrder, s.count k = (s.lists k).length

/-- The lists hold disjoint aligned blocks, no two of them buddies below `MAX_ORDER`, and the counts
are their lengths. -/
structure WellListed : Prop where
  nodup : ∀ k, (s.lists k).Nodup
  merged : Dyadic.Merged maxOrder s.blocks
  count : ∀ k ≤ maxOrder, s.count k = (s.lists k).length

/-- `PAGE_FLAG_FREE` and `buddy_order` say which pages are listed, and where. -/
structure WellMarked : Prop where
  free : ∀ p, s.IsFree p ↔ ∃ k, p ∈ s.lists k
  order : ∀ {p k}, p ∈ s.lists k → s.buddyOrder p = k

variable {s} {n k p q j : ℕ}

theorem Consistent.wellListed (hs : s.Consistent) : s.WellListed := ⟨hs.nodup, hs.merged, hs.count⟩

theorem Consistent.wellMarked (hs : s.Consistent) : s.WellMarked := ⟨hs.free, hs.order⟩

theorem WellMarked.mem_lists_of_free (hm : s.WellMarked) (hq : s.IsFree q) :
    q ∈ s.lists (s.buddyOrder q) := by
  obtain ⟨j, hj⟩ := (hm.free q).mp hq
  rwa [hm.order hj]

theorem mem_blocks {b : ℕ × ℕ} : b ∈ s.blocks ↔ b.1 ∈ s.lists b.2 := Iff.rfl

@[simp] theorem validBuddyPfn_removeFromFreelist :
    (s.removeFromFreelist q).validBuddyPfn = s.validBuddyPfn := rfl

@[simp] theorem validBuddyPfn_directFree : (s.directFree p k).validBuddyPfn = s.validBuddyPfn := rfl

theorem isFree_removeFromFreelist : (s.removeFromFreelist q).IsFree p ↔ p ≠ q ∧ s.IsFree p := by
  rcases eq_or_ne p q with rfl | hp
  · simp [IsFree, removeFromFreelist, BuddyState.clear_pageFlagFree]
  · simp [IsFree, removeFromFreelist, hp]

theorem isFree_directFree : (s.directFree q k).IsFree p ↔ p = q ∨ s.IsFree p := by
  rcases eq_or_ne p q with rfl | hp
  · simpa [IsFree, directFree] using BuddyState.or_pageFlagFree_ne (s.flags p)
  · simp [IsFree, directFree, hp]

/-! ### One level of the recursion -/

theorem freePagesAux_of_merge (h : s.MergeTest (asUint (getBuddy p k)) k) :
    freePagesAux (n + 1) s p k = freePagesAux n (s.removeFromFreelist (asUint (getBuddy p k)))
      (min p (asUint (getBuddy p k))) (k + 1) := by
  obtain ⟨hv, hf, ho, hm⟩ := h
  rw [freePagesAux, if_neg (by simp [hv]), if_neg (not_not.mpr hf), if_neg (not_not.mpr ho),
    if_neg (by rwa [ho])]
  split
  · next h => rw [min_eq_left (le_of_lt h)]
  · next h => rw [min_eq_right (le_of_not_gt h)]

theorem freePagesAux_of_not_merge (h : ¬ s.MergeTest (asUint (getBuddy p k)) k) :
    freePagesAux (n + 1) s p k = some (s.directFree p k) := by
  rw [freePagesAux]
  split_ifs with hv hf ho hm <;> try rfl
  all_goals exact absurd ⟨by simpa using hv, by simpa using hf, by simpa using ho, by simp_all⟩ h

theorem freePagesAux_mono {m : ℕ} {s' : BuddySeqs} (hnm : n ≤ m)
    (h : freePagesAux n s p k = some s') : freePagesAux m s p k = some s' := by
  induction n generalizing m s p k with
  | zero => cases h
  | succ n ih =>
    obtain ⟨m, rfl⟩ : ∃ m', m = m' + 1 := ⟨m - 1, by omega⟩
    by_cases hm : s.MergeTest (asUint (getBuddy p k)) k
    · rw [freePagesAux_of_merge hm] at h ⊢
      exact ih (by omega) h
    · rw [freePagesAux_of_not_merge hm] at h ⊢
      exact h

/-! ### Listing a block -/

theorem blocks_directFree : (s.directFree p k).blocks = insert (p, k) s.blocks :=
  listedBlocks_push

theorem freePages_directFree :
    (s.directFree p k).freePages = Dyadic.block p k ∪ s.freePages := by
  rw [freePages, blocks_directFree, Dyadic.cover_insert, freePages]

/-- **Listing a block**, whose buddy is not there. -/
theorem WellListed.directFree (hl : s.WellListed) (hlen : (s.lists k).length + 1 < 2 ^ 32)
    (hk : k ≤ maxOrder) (hp : 2 ^ k ∣ p) (hdisj : Disjoint (Dyadic.block p k) s.freePages)
    (hbuddy : k < maxOrder → Dyadic.buddy p k ∉ s.lists k) : (s.directFree p k).WellListed where
  nodup i := by
    have hnew : p ∉ s.lists k := fun hmem => Dyadic.not_disjoint_of_start p k k
      (Dyadic.disjoint_cover_right.mp hdisj (p, k) hmem)
    simp only [BuddySeqs.directFree, Function.update_apply]
    split
    · exact List.nodup_cons.mpr ⟨hnew, hl.nodup k⟩
    · exact hl.nodup i
  merged := by
    rw [blocks_directFree]
    exact hl.merged.insert hk hp hdisj hbuddy
  count i hi := by
    simp only [BuddySeqs.directFree, Function.update_apply]
    split
    · next h =>
      rw [hl.count k hk, asUint_of_lt hlen, List.length_cons]
    · exact hl.count i hi

/-- The page of the new block is marked. -/
theorem WellMarked.directFree (hm : s.WellMarked) (hnew : ∀ j, p ∉ s.lists j) :
    (s.directFree p k).WellMarked := by
  have hmem : ∀ q j, q ∈ (s.directFree p k).lists j ↔ (q = p ∧ j = k) ∨ q ∈ s.lists j := by
    intro q j
    have := Set.ext_iff.mp (blocks_directFree (s := s) (p := p) (k := k)) (q, j)
    simpa [mem_blocks] using this
  refine ⟨fun q => ?_, fun {q j} h => ?_⟩
  · simp only [isFree_directFree, hm.free, hmem]
    constructor
    · rintro (rfl | ⟨j, hj⟩)
      · exact ⟨k, Or.inl ⟨rfl, rfl⟩⟩
      · exact ⟨j, Or.inr hj⟩
    · rintro ⟨j, ⟨rfl, -⟩ | hj⟩
      · exact Or.inl rfl
      · exact Or.inr ⟨j, hj⟩
  · rcases (hmem q j).mp h with ⟨rfl, rfl⟩ | h
    · simp [BuddySeqs.directFree]
    · have hne : q ≠ p := fun heq => hnew j (heq ▸ h)
      simpa [BuddySeqs.directFree, hne] using hm.order h

namespace Consistent

theorem valid_of_mem (hs : s.Consistent) (hq : q ∈ s.lists k) {r : ℕ} (hr : r ∈ Dyadic.block q k) :
    s.validBuddyPfn r = true :=
  hs.zone r (Dyadic.mem_cover.mpr ⟨(q, k), hq, hr⟩)

/-- In a consistent state the test before a merge asks whether the buddy is listed. -/
theorem mergeTest_iff (hs : s.Consistent) : s.MergeTest q k ↔ q ∈ s.lists k ∧ k ≠ maxOrder := by
  constructor
  · rintro ⟨-, hfree, rfl, hmax⟩
    exact ⟨hs.wellMarked.mem_lists_of_free hfree, hmax⟩
  · rintro ⟨hq, hmax⟩
    exact ⟨hs.valid_of_mem hq (Dyadic.self_mem_block q k), (hs.free q).mpr ⟨k, hq⟩, hs.order hq,
      hmax⟩

/-- The length of a list fits the `count` field. -/
theorem length_lt (hs : s.Consistent) (hz : ∀ q, s.validBuddyPfn q = true → q < 2 ^ 32) (k : ℕ) :
    (s.lists k).length < 2 ^ 32 :=
  hs.merged.length_lt (by decide) (by decide) (hs.nodup k) fun q hq =>
    ⟨hq, hz q (hs.valid_of_mem hq (Dyadic.self_mem_block q k))⟩

theorem blocks_removeFromFreelist (hs : s.Consistent) (hq : q ∈ s.lists k) :
    (s.removeFromFreelist q).blocks = s.blocks \ {(q, k)} := by
  obtain rfl := hs.order hq
  exact listedBlocks_erase (hs.nodup _)

theorem mem_removeFromFreelist (hs : s.Consistent) (hq : q ∈ s.lists k) :
    p ∈ (s.removeFromFreelist q).lists j ↔ p ∈ s.lists j ∧ p ≠ q := by
  have hmem := Set.ext_iff.mp (hs.blocks_removeFromFreelist hq) (p, j)
  simp only [mem_blocks, Set.mem_sdiff, Set.mem_singleton_iff, Prod.mk.injEq] at hmem
  rw [hmem]
  refine and_congr_right fun hj => ⟨?_, fun hne heq => hne heq.1⟩
  rintro hne rfl
  exact hne ⟨rfl, (hs.order hj).symm.trans (hs.order hq)⟩

/-- **Taking out the buddy** for a merge. -/
theorem removeFromFreelist (hs : s.Consistent)
    (hz : ∀ q, s.validBuddyPfn q = true → q < 2 ^ 32) (hq : q ∈ s.lists k) :
    (s.removeFromFreelist q).Consistent where
  nodup j := by
    simp only [BuddySeqs.removeFromFreelist, Function.update_apply]
    split
    · exact (hs.nodup _).erase q
    · exact hs.nodup j
  merged := by
    rw [hs.blocks_removeFromFreelist hq]
    exact hs.merged.subset Set.sdiff_subset
  zone r hr := by
    rw [freePages, hs.blocks_removeFromFreelist hq] at hr
    obtain ⟨b, hb, hrb⟩ := Dyadic.mem_cover.mp hr
    exact hs.zone r (Dyadic.mem_cover.mpr ⟨b, hb.1, hrb⟩)
  free p := by
    rw [isFree_removeFromFreelist, hs.free, and_comm, ← exists_and_right]
    exact exists_congr fun j => (hs.mem_removeFromFreelist hq).symm
  order h := hs.order ((hs.mem_removeFromFreelist hq).mp h).1
  count j hj := by
    obtain rfl := hs.order hq
    simp only [BuddySeqs.removeFromFreelist, Function.update_apply]
    split
    · next h =>
      subst h
      rw [hs.count _ hj, asUint_pred (List.length_pos_of_mem hq) (hs.length_lt hz _),
        List.length_erase_of_mem hq]
    · exact hs.count j hj

/-- **Listing the freed block**, whose buddy is not there. -/
theorem directFree (hs : s.Consistent) (hz : ∀ q, s.validBuddyPfn q = true → q < 2 ^ 32)
    (hk : k ≤ maxOrder) (hp : 2 ^ k ∣ p) (hzone : ∀ q ∈ Dyadic.block p k, s.validBuddyPfn q = true)
    (hdisj : Disjoint (Dyadic.block p k) s.freePages)
    (hbuddy : k < maxOrder → Dyadic.buddy p k ∉ s.lists k) : (s.directFree p k).Consistent := by
  have hnew : ∀ j, p ∉ s.lists j := fun j hj => Dyadic.not_disjoint_of_start p k j
    (Dyadic.disjoint_cover_right.mp hdisj (p, j) hj)
  have hvalid : ∀ q ∈ (s.directFree p k).freePages, s.validBuddyPfn q = true := by
    intro q hq
    rw [freePages_directFree] at hq
    exact hq.elim (hzone q) (hs.zone q)
  -- the longer list fits the count too
  have hlen : (p :: s.lists k).length < 2 ^ 32 := by
    have hmerged := hs.merged.insert hk hp hdisj hbuddy
    refine hmerged.length_lt (k := k) (by decide) (by decide)
      (List.nodup_cons.mpr ⟨hnew k, hs.nodup k⟩) fun q hq => ?_
    rcases List.mem_cons.mp hq with rfl | hq
    · exact ⟨Set.mem_insert _ _, hz q (hzone q (Dyadic.self_mem_block q k))⟩
    · exact ⟨Set.mem_insert_of_mem _ hq, hz q (hs.valid_of_mem hq (Dyadic.self_mem_block q k))⟩
  have hl := hs.wellListed.directFree hlen hk hp hdisj hbuddy
  have hm := hs.wellMarked.directFree (k := k) hnew
  exact ⟨hl.nodup, hl.merged, hvalid, hm.free, hm.order, hl.count⟩

end Consistent

/-! ### The whole call -/

/-- **A free of any depth.** The induction follows the merges: each takes the buddy out and goes on
with a block that covers both, disjoint from what is still listed. -/
theorem Consistent.freePagesAux (hs : s.Consistent)
    (hz : ∀ q, s.validBuddyPfn q = true → q < 2 ^ 32) (hk : k ≤ maxOrder) (hp : 2 ^ k ∣ p)
    (hzone : ∀ q ∈ Dyadic.block p k, s.validBuddyPfn q = true)
    (hdisj : Disjoint (Dyadic.block p k) s.freePages) (hn : maxOrder < k + n) :
    ∃ s', BuddySeqs.freePagesAux n s p k = some s' ∧ s'.Consistent ∧
      s'.buddyZones = s.buddyZones ∧ s'.freePages = s.freePages ∪ Dyadic.block p k := by
  induction n generalizing s p k with
  | zero => omega
  | succ n ih =>
    have hbuddy : asUint (getBuddy p k) = Dyadic.buddy p k :=
      BuddyState.asUint_getBuddy (hz p (hzone p (Dyadic.self_mem_block p k))) hk
    by_cases h : s.MergeTest (asUint (getBuddy p k)) k
    · rw [freePagesAux_of_merge h]
      rw [hbuddy] at h ⊢
      obtain ⟨hq, hmax⟩ := hs.mergeTest_iff.mp h
      have hs' := hs.removeFromFreelist hz hq
      have hfree : (s.removeFromFreelist (Dyadic.buddy p k)).freePages =
          Dyadic.cover (s.blocks \ {(Dyadic.buddy p k, k)}) := by
        rw [freePages, hs.blocks_removeFromFreelist hq]
      have hdisj' : Disjoint (Dyadic.block (min p (Dyadic.buddy p k)) (k + 1))
          (s.removeFromFreelist (Dyadic.buddy p k)).freePages := by
        rw [hfree]
        exact hs.merged.disjoint_merge hp hdisj hq
      obtain ⟨s', hrun, hc, hzones, hpages⟩ := ih hs' hz (by omega) (Dyadic.dvd_min_buddy hp)
        (fun r hr => by
          rw [Dyadic.block_merge hp] at hr
          exact hr.elim (hzone r) (hs.valid_of_mem hq)) hdisj' (by omega)
      refine ⟨s', hrun, hc, hzones, ?_⟩
      rw [hpages, hfree, Set.union_comm, Dyadic.cover_merge hp hq, Set.union_comm, freePages]
    · rw [freePagesAux_of_not_merge h]
      rw [hbuddy, hs.mergeTest_iff] at h
      refine ⟨_, rfl, hs.directFree hz hk hp hzone hdisj fun hlt hq => h ⟨hq, by omega⟩, rfl, ?_⟩
      rw [freePages_directFree, Set.union_comm]

/-- **Coalescing free.** From a consistent state whose zone pages have frame numbers below
`2 ^ 32`, freeing an aligned block of zone pages that no listed block meets returns in a consistent
state, and the pages of that block have joined the free ones. Any bound that reaches past
`MAX_ORDER` is enough. -/
theorem free_pages_consistent (s : BuddySeqs) (p k : ℕ) (hs : s.Consistent)
    (hz : ∀ q, s.validBuddyPfn q = true → q < 2 ^ 32) (hk : k ≤ maxOrder) (hp : 2 ^ k ∣ p)
    (hzone : ∀ q ∈ Dyadic.block p k, s.validBuddyPfn q = true)
    (hdisj : Disjoint (Dyadic.block p k) s.freePages) :
    ∃ s' : BuddySeqs, (∀ n, maxOrder < k + n → BuddySeqs.freePagesAux n s p k = some s') ∧
      s'.Consistent ∧ s'.buddyZones = s.buddyZones ∧
      s'.freePages = s.freePages ∪ Dyadic.block p k := by
  obtain ⟨s', hrun, hrest⟩ := hs.freePagesAux hz hk hp hzone hdisj (n := maxOrder + 1 - k) (by omega)
  exact ⟨s', fun n hn => freePagesAux_mono (by omega) hrun, hrest⟩

/-- One page is freed next to two free blocks. -/
def threeFree : BuddySeqs where
  lists k := if k = 0 then [1] else if k = 1 then [2] else []
  count k := if k ≤ 1 then 1 else 0
  flags p := if p = 1 ∨ p = 2 then pageFlagFree else 0
  buddyOrder p := if p = 2 then 1 else 0
  buddyZones := [⟨0, 4⟩]

theorem mem_threeFree_lists : p ∈ threeFree.lists k ↔ p = 1 ∧ k = 0 ∨ p = 2 ∧ k = 1 := by
  rcases k with - | - | k <;> simp [threeFree]

theorem threeFree_consistent : threeFree.Consistent where
  nodup k := by
    rcases k with - | - | k <;> simp [threeFree]
  merged := by
    have hmem : ∀ b, b ∈ threeFree.blocks ↔ b = (1, 0) ∨ b = (2, 1) := fun b => by
      rw [mem_blocks, mem_threeFree_lists, Prod.ext_iff, Prod.ext_iff]
    have hdisj : Disjoint (Dyadic.block 1 0) (Dyadic.block 2 1) := Set.Ico_disjoint_Ico_same
    refine ⟨fun b hb => ?_, fun b hb => ?_, fun b hb c hc hne => ?_, fun b hb hlt hmerge => ?_⟩
    · rcases (hmem b).mp hb with rfl | rfl <;> decide
    · rcases (hmem b).mp hb with rfl | rfl <;> decide
    · rcases (hmem b).mp hb with rfl | rfl <;> rcases (hmem c).mp hc with rfl | rfl
      · exact absurd rfl hne
      · exact hdisj
      · exact hdisj.symm
      · exact absurd rfl hne
    · rcases (hmem b).mp hb with rfl | rfl <;> rcases (hmem _).mp hmerge with h | h <;>
        exact absurd h (by decide)
  zone q hq := by
    obtain ⟨⟨p, k⟩, hb, hq⟩ := Dyadic.mem_cover.mp hq
    rcases mem_threeFree_lists.mp hb with ⟨rfl, rfl⟩ | ⟨rfl, rfl⟩ <;>
      simp [validBuddyPfn, threeFree, Dyadic.mem_block] at hq ⊢ <;> omega
  free p := by
    have hfree : threeFree.IsFree p ↔ p = 1 ∨ p = 2 := by
      by_cases hp : p = 1 ∨ p = 2 <;> simp [IsFree, threeFree, hp, pageFlagFree]
    simp only [hfree, mem_threeFree_lists]
    constructor
    · rintro (rfl | rfl)
      · exact ⟨0, Or.inl ⟨rfl, rfl⟩⟩
      · exact ⟨1, Or.inr ⟨rfl, rfl⟩⟩
    · rintro ⟨k, ⟨rfl, -⟩ | ⟨rfl, -⟩⟩
      · exact Or.inl rfl
      · exact Or.inr rfl
  order {p k} h := by
    rcases mem_threeFree_lists.mp h with ⟨rfl, rfl⟩ | ⟨rfl, rfl⟩ <;> rfl
  count k _ := by
    rcases k with - | - | k <;> simp [threeFree]

theorem free_pages_consistent_merges :
    ∃ s' : BuddySeqs,
      (∀ n, maxOrder < 0 + n → BuddySeqs.freePagesAux n threeFree 0 0 = some s') ∧
        s'.Consistent ∧ s'.buddyZones = threeFree.buddyZones ∧
        s'.freePages = threeFree.freePages ∪ Dyadic.block 0 0 := by
  have hvalid : ∀ q, threeFree.validBuddyPfn q = true → q < 4 := fun q hq => by
    simpa [validBuddyPfn, threeFree] using hq
  refine free_pages_consistent threeFree 0 0 threeFree_consistent
    (fun q hq => (hvalid q hq).trans (by decide)) (by decide) (one_dvd 0) (fun q hq => ?_)
    (Dyadic.disjoint_cover_right.mpr fun b hb => ?_)
  · obtain rfl : q = 0 := Nat.lt_one_iff.mp (Dyadic.mem_block.mp hq).2
    rfl
  · rw [Set.disjoint_left]
    intro q hq hqb
    obtain rfl : q = 0 := Nat.lt_one_iff.mp (Dyadic.mem_block.mp hq).2
    have hle := (Dyadic.mem_block.mp hqb).1
    rcases mem_threeFree_lists.mp hb with ⟨h, -⟩ | ⟨h, -⟩ <;> omega

/-- The two merges of that call. -/
example : (threeFree.freePagesAux 3 0 0).map (fun s => (s.lists 0, s.lists 1, s.lists 2)) =
    some ([], [], [0]) := by decide

/-! ### The link fields -/

/-- The free lists of `t` visit the sequences of `s`, and the rest of the two states is the same. -/
structure Abstracts (s : BuddySeqs) (t : BuddyState) : Prop where
  rep : Rep t.links t.heads s.lists
  count : ∀ k, (t.buddyLists k).count = s.count k
  flags : t.flags = s.flags
  order : t.buddyOrder = s.buddyOrder
  zones : t.buddyZones = s.buddyZones

namespace Abstracts

variable {t : BuddyState}

theorem mergeTest_iff (h : Abstracts s t) : t.MergeTest q k ↔ s.MergeTest q k := by
  rw [BuddyState.MergeTest, MergeTest, BuddyState.validBuddyPfn, validBuddyPfn, BuddyState.IsFree,
    IsFree, h.zones, h.flags, h.order]

theorem removeFromFreelist (h : Abstracts s t) (hq : q ∈ s.lists (s.buddyOrder q))
    (hc : CleanUnlink t.links t.heads (s.buddyOrder q) q) :
    Abstracts (s.removeFromFreelist q) (t.removeFromFreelist q) where
  rep := by
    rw [BuddyState.heads_removeFromFreelist, h.order]
    exact h.rep.remove hq hc
  count j := by
    simp only [BuddyState.removeFromFreelist, BuddyState.clearFree, BuddySeqs.removeFromFreelist,
      Function.update_apply, h.order, h.count]
    split
    · rfl
    · exact h.count j
  flags := by
    simp only [BuddyState.removeFromFreelist, BuddyState.clearFree, BuddySeqs.removeFromFreelist,
      h.flags]
  order := h.order
  zones := h.zones

theorem directFree (h : Abstracts s t) (hp : ∀ j, p ∉ s.lists j) (k : ℕ) :
    Abstracts (s.directFree p k) (t.directFree p k) where
  rep := by
    rw [BuddyState.heads_directFree]
    exact h.rep.push hp k
  count j := by
    simp only [BuddyState.directFree, BuddySeqs.directFree, Function.update_apply, h.count]
    split
    · rfl
    · exact h.count j
  flags := by simp only [BuddyState.directFree, BuddySeqs.directFree, h.flags]
  order := by simp only [BuddyState.directFree, BuddySeqs.directFree, h.order]
  zones := h.zones

/-- **The link fields.** On lists whose front nodes have no stale `prev` field, a call of
`free_pages_nolock` in a consistent state does what it does to the sequences. -/
theorem freePagesAux {s' : BuddySeqs} (h : Abstracts s t) (hs : s.Consistent)
    (hz : ∀ q, s.validBuddyPfn q = true → q < 2 ^ 32) (hf : FrontsNull t.links t.heads)
    (hp : ∀ j, p ∉ s.lists j) (hrun : BuddySeqs.freePagesAux n s p k = some s') :
    Abstracts s' (BuddyState.freePagesAux n t p k) := by
  induction n generalizing s t p k with
  | zero => cases hrun
  | succ n ih =>
    by_cases hm : s.MergeTest (asUint (getBuddy p k)) k
    · rw [freePagesAux_of_merge hm] at hrun
      rw [BuddyState.freePagesAux_of_merge (h.mergeTest_iff.mpr hm)]
      have hq : asUint (getBuddy p k) ∈ s.lists (s.buddyOrder (asUint (getBuddy p k))) :=
        hs.wellMarked.mem_lists_of_free hm.2.1
      refine ih (h.removeFromFreelist hq hf.cleanUnlink) (hs.removeFromFreelist hz hq) hz ?_
        (fun j hj => ?_) hrun
      · rw [BuddyState.heads_removeFromFreelist, h.order]
        exact hf.remove h.rep hq
      · obtain ⟨hj, hne⟩ := (hs.mem_removeFromFreelist hq).mp hj
        rcases min_choice p (asUint (getBuddy p k)) with heq | heq
        · exact hp j (heq ▸ hj)
        · exact hne heq
    · rw [freePagesAux_of_not_merge hm] at hrun
      rw [BuddyState.freePagesAux_of_not_merge (h.mergeTest_iff.not.mpr hm)]
      obtain rfl := Option.some.inj hrun
      exact h.directFree hp k

end Abstracts

end BuddySeqs

end GoofyOs
