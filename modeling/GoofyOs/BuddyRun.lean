import GoofyOs.Buddy
import GoofyOs.ForMathlib.Run
import Mathlib.Data.Finset.Card

/-!
# Whole runs of the buddy allocator

A run is a sequence of `alloc_pages` and `free_pages` calls in which every block that is freed was
returned by an earlier allocation of the same order and not freed since. What the callers hold is
the ghost list `live`.

The allocator itself is not safe under such runs. `alloc_pages_nolock` pops a block of the
requested order without clearing `PAGE_FLAG_FREE` on it, so that the merge test of a later
`free_pages_nolock` takes a block in use for a free one; and `remove_from_freelist` writes through
the stale back pointer of a front node. `CleanFree` says of one call that neither happens, and
`Owned` is then an invariant.

## Main definitions

* `BuddyState.Owned` — the free lists and the blocks in use are disjoint aligned zone blocks
* `BuddyState.CleanFree` — every merge of a call takes a listed block and unlinks it cleanly
* `BuddySys`, `BuddyCall` — the allocator with its callers' blocks, and what they can call

## Main results

* `BuddyState.Owned.freePages`, `BuddyState.Owned.allocPages` — each call keeps the invariant
* `buddy_run_good` — so does every run of clean calls
* `buddy_run_not_good` — without the condition three calls are enough to lose it
-/

namespace GoofyOs

open LinkedList ListHead

namespace BuddyState

variable {s : BuddyState} {L : ℕ → List ℕ} {live : List (ℕ × ℕ)} {k p q page order pfn n : ℕ}

/-! ### Zones -/

/-- A block of zone pages, aligned to its order. -/
structure ZoneBlock (s : BuddyState) (p k : ℕ) : Prop where
  aligned : 2 ^ k ∣ p
  valid : ∀ q ∈ Dyadic.block p k, s.validBuddyPfn q = true

/-- The zones lie below frame `2 ^ 32` and do not fill that range, so that frame numbers and
counts of blocks fit an `unsigned int`. -/
structure ZonesFit (s : BuddyState) : Prop where
  below : ∀ pfn, s.validBuddyPfn pfn = true → pfn < 2 ^ 32
  notAll : ∃ pfn < 2 ^ 32, s.validBuddyPfn pfn = false

theorem ZoneBlock.start_lt (hb : s.ZoneBlock p k) (hz : s.ZonesFit) : p < 2 ^ 32 :=
  hz.below p (hb.valid p (Dyadic.self_mem_block p k))

theorem ZoneBlock.merge (hp : s.ZoneBlock p k) (hq : s.ZoneBlock (Dyadic.buddy p k) k) :
    s.ZoneBlock (min p (Dyadic.buddy p k)) (k + 1) where
  aligned := Dyadic.dvd_min_buddy hp.aligned
  valid q h := by
    rw [Dyadic.block_merge hp.aligned] at h
    exact h.elim (hp.valid q) (hq.valid q)

theorem ZoneBlock.lower (hb : s.ZoneBlock p (k + 1)) : s.ZoneBlock p k where
  aligned := (pow_dvd_pow 2 (Nat.le_succ k)).trans hb.aligned
  valid q h := hb.valid q (by rw [Dyadic.block_succ]; exact Or.inl h)

theorem ZoneBlock.upper (hb : s.ZoneBlock p (k + 1)) : s.ZoneBlock (p + 2 ^ k) k where
  aligned := Nat.dvd_add hb.lower.aligned dvd_rfl
  valid q h := hb.valid q (by rw [Dyadic.block_succ]; exact Or.inr h)

/-! ### The invariant -/

/-- The free lists visit the blocks `L`, their owners hold the blocks `live`, and all of these are
disjoint aligned blocks of zone pages. `PAGE_FLAG_FREE` and `buddy_order` are right on listed
blocks; nothing is said of them elsewhere. -/
structure Owned (s : BuddyState) (L : ℕ → List ℕ) (live : List (ℕ × ℕ)) : Prop where
  rep : Rep s.links s.heads L
  count : ∀ k ≤ maxOrder, (s.buddyLists k).count = (L k).length
  order_le : ∀ {k p}, p ∈ L k → k ≤ maxOrder
  free : ∀ {k p}, p ∈ L k → s.IsFree p ∧ s.buddyOrder p = k
  listed_block : ∀ {k p}, p ∈ L k → s.ZoneBlock p k
  live_block : ∀ {b}, b ∈ live → b.2 ≤ maxOrder ∧ s.ZoneBlock b.1 b.2
  listed_disj : ∀ {j k p q}, p ∈ L j → q ∈ L k → p ≠ q →
    Disjoint (Dyadic.block p j) (Dyadic.block q k)
  cross_disj : ∀ {k p b}, p ∈ L k → b ∈ live → Disjoint (Dyadic.block p k) (Dyadic.block b.1 b.2)
  live_disj : live.Pairwise fun a b => Disjoint (Dyadic.block a.1 a.2) (Dyadic.block b.1 b.2)

namespace Owned

theorem perm {live' : List (ℕ × ℕ)} (ho : s.Owned L live) (hp : live.Perm live') :
    s.Owned L live' :=
  { ho with
    live_block := fun hb => ho.live_block (hp.mem_iff.mpr hb)
    cross_disj := fun h hb => ho.cross_disj h (hp.mem_iff.mpr hb)
    live_disj := (hp.pairwise_iff fun h => h.symm).mp ho.live_disj }

/-- A block in use is on no free list. -/
theorem not_listed (ho : s.Owned L ((p, k) :: live)) (j : ℕ) : p ∉ L j := fun h =>
  Dyadic.not_disjoint_of_start p j k (ho.cross_disj h (List.mem_cons_self ..))

/-- A list of blocks is shorter than `2 ^ 32`, so its length fits the `count` field. -/
theorem length_lt {xs : List ℕ} (hz : s.ZonesFit) (hnd : xs.Nodup)
    (hb : ∀ r ∈ xs, s.ZoneBlock r k) : xs.length < 2 ^ 32 := by
  obtain ⟨q, hq, hqv⟩ := hz.notAll
  have hsub : xs.toFinset ⊆ (Finset.range (2 ^ 32)).erase q := by
    intro r hr
    have hr := hb r (List.mem_toFinset.mp hr)
    refine Finset.mem_erase.mpr ⟨?_, Finset.mem_range.mpr (hr.start_lt hz)⟩
    rintro rfl
    rw [hr.valid _ (Dyadic.self_mem_block _ k)] at hqv
    exact Bool.noConfusion hqv
  have hcard := Finset.card_le_card hsub
  rw [List.toFinset_card_of_nodup hnd, Finset.card_erase_of_mem (Finset.mem_range.mpr hq),
    Finset.card_range] at hcard
  have : 0 < 2 ^ 32 := Nat.two_pow_pos 32
  omega

theorem length_lt_of_listed (ho : s.Owned L live) (hz : s.ZonesFit) (k : ℕ) :
    (L k).length < 2 ^ 32 :=
  length_lt hz (ho.rep.nodup k) fun _ hr => ho.listed_block hr

/-! ### Blocks in use: merging and splitting -/

/-- Two buddies in use count as one block of the next order. -/
theorem merge (ho : s.Owned L ((p, k) :: (Dyadic.buddy p k, k) :: live)) (hk : k < maxOrder) :
    s.Owned L ((min p (Dyadic.buddy p k), k + 1) :: live) := by
  have hp := (ho.live_block (b := (p, k)) (by simp)).2
  have hq := (ho.live_block (b := (Dyadic.buddy p k, k)) (by simp)).2
  have hpair := List.pairwise_cons.mp ho.live_disj
  have hpair' := List.pairwise_cons.mp hpair.2
  refine { ho with
    live_block := fun {b} hb => ?_
    cross_disj := fun {j r b} h hb => ?_
    live_disj := List.pairwise_cons.mpr ⟨fun b hb => ?_, hpair'.2⟩ }
  · rcases List.mem_cons.mp hb with rfl | hb
    · exact ⟨hk, hp.merge hq⟩
    · exact ho.live_block (by simp [hb])
  · rcases List.mem_cons.mp hb with rfl | hb
    · rw [Dyadic.block_merge hp.aligned]
      exact (ho.cross_disj h (b := (p, k)) (by simp)).union_right
        (ho.cross_disj h (b := (Dyadic.buddy p k, k)) (by simp))
    · exact ho.cross_disj h (by simp [hb])
  · rw [Dyadic.block_merge hp.aligned]
    exact (hpair.1 b (by simp [hb])).union_left (hpair'.1 b hb)

/-- A block in use counts as its two halves. -/
theorem split (ho : s.Owned L ((p, k + 1) :: live)) :
    s.Owned L ((p + 2 ^ k, k) :: (p, k) :: live) := by
  obtain ⟨hk, hb⟩ := ho.live_block (b := (p, k + 1)) (by simp)
  have hpair := List.pairwise_cons.mp ho.live_disj
  have hlow : Dyadic.block p k ⊆ Dyadic.block p (k + 1) := by
    rw [Dyadic.block_succ]
    exact Set.subset_union_left
  have hupp : Dyadic.block (p + 2 ^ k) k ⊆ Dyadic.block p (k + 1) := by
    rw [Dyadic.block_succ]
    exact Set.subset_union_right
  refine { ho with
    live_block := fun {b} h => ?_
    cross_disj := fun {j r b} h h' => ?_
    live_disj := List.pairwise_cons.mpr ⟨fun b h => ?_,
      List.pairwise_cons.mpr ⟨fun b h => (hpair.1 b h).mono_left hlow, hpair.2⟩⟩ }
  · simp only [List.mem_cons] at h
    rcases h with rfl | rfl | h
    · exact ⟨by omega, hb.upper⟩
    · exact ⟨by omega, hb.lower⟩
    · exact ho.live_block (by simp [h])
  · simp only [List.mem_cons] at h'
    rcases h' with rfl | rfl | h'
    · exact (ho.cross_disj h (b := (p, k + 1)) (by simp)).mono_right hupp
    · exact (ho.cross_disj h (b := (p, k + 1)) (by simp)).mono_right hlow
    · exact ho.cross_disj h (by simp [h'])
  · rcases List.mem_cons.mp h with rfl | h
    · exact (Dyadic.disjoint_halves p k).symm
    · exact (hpair.1 b h).mono_left hupp

/-! ### Moving a block between the lists and the callers -/

theorem mem_update_erase (hr : Rep s.links s.heads L) (hp : p ∈ L k) {j : ℕ} :
    q ∈ Function.update L k ((L k).erase p) j ↔ q ∈ L j ∧ q ≠ p := by
  rcases eq_or_ne j k with rfl | hj
  · rw [Function.update_self, (hr.nodup j).mem_erase_iff, and_comm]
  · rw [Function.update_of_ne hj]
    refine ⟨fun h => ⟨h, ?_⟩, And.left⟩
    rintro rfl
    exact hj (hr.disj h hp)

/-- Unlisting hands the block over: what was on a free list is now in use. -/
theorem hand_over {s' : BuddyState} {L' : ℕ → List ℕ} (ho : s.Owned L live) (hp : p ∈ L k)
    (hrep : Rep s'.links s'.heads L') (hL' : ∀ {j q}, q ∈ L' j ↔ q ∈ L j ∧ q ≠ p)
    (hcount : ∀ k ≤ maxOrder, (s'.buddyLists k).count = (L' k).length)
    (hfree : ∀ q ≠ p, s.IsFree q → s'.IsFree q) (horder : s'.buddyOrder = s.buddyOrder)
    (hzones : s'.validBuddyPfn = s.validBuddyPfn) : s'.Owned L' ((p, k) :: live) := by
  have hzb : ∀ {p k}, s.ZoneBlock p k → s'.ZoneBlock p k := fun h =>
    ⟨h.aligned, fun q hq => by rw [hzones]; exact h.valid q hq⟩
  refine ⟨hrep, hcount, fun h => ho.order_le (hL'.mp h).1, fun h => ?_,
    fun h => hzb (ho.listed_block (hL'.mp h).1), fun {b} hb => ?_,
    fun h h' => ho.listed_disj (hL'.mp h).1 (hL'.mp h').1, fun {j q b} h hb => ?_,
    List.pairwise_cons.mpr ⟨fun b hb => ho.cross_disj hp hb, ho.live_disj⟩⟩
  · obtain ⟨h, hne⟩ := hL'.mp h
    rw [horder]
    exact ⟨hfree _ hne (ho.free h).1, (ho.free h).2⟩
  · rcases List.mem_cons.mp hb with rfl | hb
    · exact ⟨ho.order_le hp, hzb (ho.listed_block hp)⟩
    · exact ⟨(ho.live_block hb).1, hzb (ho.live_block hb).2⟩
  · obtain ⟨h, hne⟩ := hL'.mp h
    rcases List.mem_cons.mp hb with rfl | hb
    · exact ho.listed_disj h hp hne
    · exact ho.cross_disj h hb

end Owned

@[simp] theorem validBuddyPfn_removeFromFreelist :
    (s.removeFromFreelist p).validBuddyPfn = s.validBuddyPfn := rfl

@[simp] theorem validBuddyPfn_directFree : (s.directFree p k).validBuddyPfn = s.validBuddyPfn := rfl

@[simp] theorem buddyOrder_removeFromFreelist :
    (s.removeFromFreelist p).buddyOrder = s.buddyOrder := rfl

theorem heads_removeFromFreelist :
    (s.removeFromFreelist p).heads = Function.update s.heads (s.buddyOrder p)
      (listRemoveNode s.links (s.heads (s.buddyOrder p)) p).2 := by
  funext j
  simp only [heads, removeFromFreelist, clearFree, Function.update_apply]
  split <;> rfl

theorem heads_directFree :
    (s.directFree p k).heads = Function.update s.heads k (some p) := by
  funext j
  simp only [heads, directFree, Function.update_apply]
  split <;> rfl

namespace Owned

/-- **Unlinking for a merge.** -/
theorem removeFromFreelist (ho : s.Owned L live) (hz : s.ZonesFit) (hp : p ∈ L k)
    (hc : CleanUnlink s.links s.heads k p) :
    (s.removeFromFreelist p).Owned (Function.update L k ((L k).erase p)) ((p, k) :: live) := by
  obtain ⟨-, hk⟩ := ho.free hp
  subst hk
  refine ho.hand_over hp ?_ (mem_update_erase ho.rep hp) (fun j hj => ?_)
    (fun q hq h => isFree_removeFromFreelist.mpr ⟨hq, h⟩) rfl rfl
  · rw [heads_removeFromFreelist]
    exact ho.rep.remove hp hc
  · have hcount : ((s.removeFromFreelist p).buddyLists j).count =
        if j = s.buddyOrder p then asUint ((s.buddyLists j).count + (2 ^ 32 - 1))
        else (s.buddyLists j).count := by
      simp only [BuddyState.removeFromFreelist, clearFree, Function.update_apply]
      split <;> simp_all
    rw [hcount, ho.count j hj]
    split
    · next h =>
      subst h
      rw [asUint_pred (List.length_pos_of_mem hp) (ho.length_lt_of_listed hz _),
        Function.update_self,
        List.length_erase_of_mem hp]
    · next h => rw [Function.update_of_ne h]

/-- **Popping for an allocation.** -/
theorem popFront (ho : s.Owned L live) (hz : s.ZonesFit) (hk : k ≤ maxOrder)
    (hp : s.heads k = some p) :
    ∃ L', { s with
      buddyLists := Function.update s.buddyLists k
        ⟨s.links.next p, asUint ((s.buddyLists k).count + (2 ^ 32 - 1))⟩ : BuddyState }.Owned L'
      ((p, k) :: live) := by
  obtain ⟨xs, hL, hrep⟩ := ho.rep.pop hp
  have hmem : p ∈ L k := by simp [hL]
  have herase : (L k).erase p = xs := by simp [hL]
  rw [← herase] at hrep
  refine ⟨_, ho.hand_over hmem ?_ (mem_update_erase ho.rep hmem) (fun j hj => ?_)
    (fun q _ h => h) rfl rfl⟩
  · convert hrep using 1
    funext j
    simp only [heads, Function.update_apply]
    split <;> rfl
  · rcases eq_or_ne j k with rfl | hjk
    · simp only [Function.update_self]
      rw [ho.count j hj, asUint_pred (List.length_pos_of_mem hmem) (ho.length_lt_of_listed hz j),
        List.length_erase_of_mem hmem]
    · simp only [Function.update_of_ne hjk]
      exact ho.count j hj

/-- **Listing a freed block**, the path `direct_free`. -/
theorem directFree (ho : s.Owned L ((p, k) :: live)) (hz : s.ZonesFit) :
    (s.directFree p k).Owned (Function.update L k (p :: L k)) live := by
  obtain ⟨hk, hzb⟩ := ho.live_block (b := (p, k)) (by simp)
  have hpair := List.pairwise_cons.mp ho.live_disj
  have hmem : ∀ {j q}, q ∈ Function.update L k (p :: L k) j → (q = p ∧ j = k) ∨ (q ≠ p ∧ q ∈ L j) := by
    intro j q h
    have hne : q ∈ L j → q ≠ p := by
      rintro hq rfl
      exact ho.not_listed j hq
    rcases eq_or_ne j k with rfl | hj
    · rw [Function.update_self, List.mem_cons] at h
      rcases h with rfl | h
      · exact Or.inl ⟨rfl, rfl⟩
      · exact Or.inr ⟨hne h, h⟩
    · rw [Function.update_of_ne hj] at h
      exact Or.inr ⟨hne h, h⟩
  refine ⟨?_, fun j hj => ?_, fun h => ?_, fun h => ?_, fun h => ?_,
    fun hb => ?_, fun h h' hne => ?_, fun h hb => ?_, hpair.2⟩
  · rw [heads_directFree]
    exact ho.rep.push ho.not_listed k
  · rcases eq_or_ne j k with rfl | hjk
    · have hnd : (p :: L j).Nodup := List.nodup_cons.mpr ⟨ho.not_listed j, ho.rep.nodup j⟩
      have hlen := length_lt hz hnd fun r hr => by
          rcases List.mem_cons.mp hr with rfl | hr
          · exact hzb
          · exact ho.listed_block hr
      simp only [BuddyState.directFree, Function.update_self]
      rw [ho.count j hj, asUint_of_lt (by simpa using hlen), List.length_cons]
    · simp only [BuddyState.directFree, Function.update_of_ne hjk]
      exact ho.count j hj
  · rcases hmem h with ⟨rfl, rfl⟩ | ⟨-, h⟩
    · exact hk
    · exact ho.order_le h
  · rcases hmem h with ⟨rfl, rfl⟩ | ⟨hne, h⟩
    · exact ⟨isFree_directFree.mpr (Or.inl rfl), by simp [BuddyState.directFree]⟩
    · exact ⟨isFree_directFree.mpr (Or.inr (ho.free h).1),
        by simpa [BuddyState.directFree, hne] using (ho.free h).2⟩
  · rcases hmem h with ⟨rfl, rfl⟩ | ⟨-, h⟩
    · exact ⟨hzb.aligned, hzb.valid⟩
    · exact ⟨(ho.listed_block h).aligned, (ho.listed_block h).valid⟩
  · obtain ⟨hk, hb⟩ := ho.live_block (List.mem_cons_of_mem _ hb)
    exact ⟨hk, hb.aligned, hb.valid⟩
  · rcases hmem h with ⟨rfl, rfl⟩ | ⟨-, h₁⟩ <;> rcases hmem h' with ⟨rfl, rfl⟩ | ⟨-, h₂⟩
    · exact absurd rfl hne
    · exact (ho.cross_disj h₂ (b := (_, _)) (by simp)).symm
    · exact ho.cross_disj h₁ (b := (_, _)) (by simp)
    · exact ho.listed_disj h₁ h₂ hne
  · rcases hmem h with ⟨rfl, rfl⟩ | ⟨-, h₁⟩
    · exact hpair.1 _ hb
    · exact ho.cross_disj h₁ (by simp [hb])

/-- Clearing the flag of a block in use. -/
theorem clearFree (ho : s.Owned L ((p, k) :: live)) :
    (s.clearFree p).Owned L ((p, k) :: live) :=
  { ho with
    free := fun {j q} h => by
      have hne : q ≠ p := by
        rintro rfl
        exact ho.not_listed j h
      exact ⟨isFree_clearFree.mpr ⟨hne, (ho.free h).1⟩, (ho.free h).2⟩
    listed_block := fun h => ⟨(ho.listed_block h).aligned, (ho.listed_block h).valid⟩
    live_block := fun h =>
      ⟨(ho.live_block h).1, (ho.live_block h).2.aligned, (ho.live_block h).2.valid⟩ }

end Owned

/-! ### One call -/

/-- Every merge of a `free_pages_nolock` call is sound: the page that passes the merge test is on
the free list of that order, and unlinking it writes into no listed page. The recursion follows the
one of `freePagesAux`. -/
def CleanFree : ℕ → BuddyState → ℕ → ℕ → Prop
  | 0, _, _, _ => True
  | n + 1, s, pfn, order =>
    let buddyPfn := asUint (getBuddy pfn order)
    s.MergeTest buddyPfn order →
      (∃ xs, Walk s.links.next (s.heads order) xs ∧ buddyPfn ∈ xs) ∧
        CleanUnlink s.links s.heads order buddyPfn ∧
        CleanFree n (s.removeFromFreelist buddyPfn) (min pfn buddyPfn) (order + 1)

/-- Below `2 ^ 32` the 32-bit computation of the buddy's frame number loses nothing. -/
theorem asUint_getBuddy (hp : p < 2 ^ 32) (hk : k ≤ maxOrder) :
    asUint (getBuddy p k) = Dyadic.buddy p k := by
  have hk : 2 ^ k < 2 ^ 32 := Nat.pow_lt_pow_right (by norm_num) (by simp [maxOrder] at hk; omega)
  rw [getBuddy_eq, Dyadic.buddy, asUint_of_lt (Nat.xor_lt_two_pow hp hk)]

theorem validBuddyPfn_freePagesAux (n : ℕ) (s : BuddyState) (p k : ℕ) :
    (freePagesAux n s p k).validBuddyPfn = s.validBuddyPfn := by
  induction n generalizing s p k with
  | zero => rfl
  | succ n ih =>
    by_cases h : s.MergeTest (asUint (getBuddy p k)) k
    · rw [freePagesAux_of_merge h, ih, validBuddyPfn_removeFromFreelist]
    · rw [freePagesAux_of_not_merge h, validBuddyPfn_directFree]

theorem ZonesFit.congr {s' : BuddyState} (hz : s.ZonesFit)
    (h : s'.validBuddyPfn = s.validBuddyPfn) : s'.ZonesFit where
  below := by rw [h]; exact hz.below
  notAll := by rw [h]; exact hz.notAll

namespace Owned

/-- **A clean free keeps the invariant.** The induction follows the merges; each one moves the
buddy from its list to the block being freed. -/
theorem freePagesAux (ho : s.Owned L ((p, k) :: live)) (hz : s.ZonesFit)
    (hn : maxOrder < k + n) (hc : CleanFree n s p k) :
    ∃ L', (BuddyState.freePagesAux n s p k).Owned L' live := by
  induction n generalizing s L p k with
  | zero =>
    have := (ho.live_block (b := (p, k)) (by simp)).1
    omega
  | succ n ih =>
    obtain ⟨hk, hb⟩ := ho.live_block (b := (p, k)) (by simp)
    by_cases h : s.MergeTest (asUint (getBuddy p k)) k
    · obtain ⟨⟨xs, hw, hx⟩, hclean, hrest⟩ := hc h
      rw [freePagesAux_of_merge h]
      have hbuddy := asUint_getBuddy (hb.start_lt hz) hk
      simp only [hbuddy] at hw hx hclean hrest ⊢
      have hmem : Dyadic.buddy p k ∈ L k := (ho.rep.walk k).unique hw ▸ hx
      have ho' := (ho.removeFromFreelist hz hmem hclean).perm (.swap ..)
      exact ih (ho'.merge (lt_of_le_of_ne hk h.2.2.2)) (hz.congr rfl) (by omega) hrest
    · rw [freePagesAux_of_not_merge h]
      exact ⟨_, ho.directFree hz⟩

/-- `free_pages` of a block in use. -/
theorem freePages (ho : s.Owned L live) (hz : s.ZonesFit) (hp : (p, k) ∈ live)
    (hc : CleanFree (maxOrder + 1) s p k) : ∃ L', (s.freePages p k).Owned L' (live.erase (p, k)) :=
  (ho.perm (List.perm_cons_erase hp)).freePagesAux hz (by omega) hc

/-- Nothing merges when the upper half of a split block is freed: the flag of the lower half is
clear, or its order is still the larger one it was listed with. -/
theorem freePagesNolock_upper (ho : s.Owned L ((p, k + 1) :: live)) (hz : s.ZonesFit)
    (hflag : s.IsFree p → k < s.buddyOrder p) :
    s.freePagesNolock (getBuddy p k) k = s.directFree (p + 2 ^ k) k := by
  have ho' := ho.split
  obtain ⟨hk, hb⟩ := ho'.live_block (b := (p + 2 ^ k, k)) (by simp)
  have hdvd := (ho.live_block (b := (p, k + 1)) (by simp)).2.aligned
  rw [getBuddy_eq, Dyadic.buddy_of_dvd hdvd, freePagesNolock, freePagesAux_of_not_merge]
  rw [asUint_getBuddy (hb.start_lt hz) hk, Dyadic.buddy_of_dvd_add hdvd]
  rintro ⟨-, hfree, horder, -⟩
  exact absurd horder (hflag hfree).ne'

/-- **An allocation keeps the invariant**, and hands over the block it returns. The last clause is
what the enclosing call needs to know about the flag of that block. -/
theorem allocPagesAux {r : Option ℕ} {s' : BuddyState} (ho : s.Owned L live) (hz : s.ZonesFit)
    (h : BuddyState.allocPagesAux n s k = some (r, s')) :
    s'.validBuddyPfn = s.validBuddyPfn ∧
      ∃ L', s'.Owned L' (r.toList.map (·, k) ++ live) ∧
        ∀ p ∈ r, s'.IsFree p → k ≤ s'.buddyOrder p := by
  induction n generalizing k r s' with
  | zero => simp [BuddyState.allocPagesAux] at h
  | succ n ih =>
    rw [BuddyState.allocPagesAux] at h
    split_ifs at h with hmax hcount htop
    · -- the list of this order is not empty
      obtain ⟨⟨p, hd⟩, hpop, hr⟩ := Option.map_eq_some_iff.mp h
      obtain ⟨q, hq, hpq⟩ := Option.map_eq_some_iff.mp hpop
      obtain ⟨rfl, rfl⟩ := Prod.mk.inj hpq
      obtain ⟨rfl, rfl⟩ := Prod.mk.inj hr
      obtain ⟨L', ho'⟩ := ho.popFront hz (not_lt.mp hmax) hq
      refine ⟨rfl, L', ho', ?_⟩
      rintro p hp -
      obtain rfl := Option.some.inj hp
      have hmem : q ∈ L k := List.mem_of_mem_head? ((ho.rep.walk k).head_eq ▸ hq)
      exact (ho.free hmem).2.ge
    · obtain ⟨rfl, rfl⟩ := Prod.mk.inj (Option.some.inj h)
      exact ⟨rfl, L, ho, by simp⟩
    · cases hrec : BuddyState.allocPagesAux n s (k + 1) with
      | none => simp [hrec] at h
      | some res =>
        obtain ⟨r₁, s₁⟩ := res
        obtain ⟨hv, L₁, ho₁, hflag⟩ := ih hrec
        cases r₁ with
        | none =>
          simp only [hrec, Option.some.injEq, Prod.mk.injEq] at h
          obtain ⟨rfl, rfl⟩ := h
          exact ⟨hv, L₁, ho₁, by simp⟩
        | some p =>
          simp only [hrec, Option.some.injEq, Prod.mk.injEq] at h
          obtain ⟨rfl, rfl⟩ := h
          have hz₁ := hz.congr hv
          have hupper := ho₁.freePagesNolock_upper hz₁ fun hf => hflag p rfl hf
          rw [hupper]
          have ho₂ := ((ho₁.split).directFree hz₁).clearFree
          refine ⟨hv, _, ho₂, ?_⟩
          rintro q hq hf
          obtain rfl := Option.some.inj hq
          exact absurd rfl (isFree_clearFree.mp hf).1

/-- An allocation of a valid order returns: a list with a positive count is never empty. -/
theorem allocPagesAux_ne_none (ho : s.Owned L live) (hk : k ≤ maxOrder)
    (hn : maxOrder < k + n) : BuddyState.allocPagesAux n s k ≠ none := by
  induction n generalizing k with
  | zero => omega
  | succ n ih =>
    rw [BuddyState.allocPagesAux]
    split_ifs with hmax hcount htop
    · omega
    · rw [ho.count k hk] at hcount
      obtain ⟨p, xs, hL⟩ := List.exists_cons_of_length_pos hcount
      have hhead : (s.buddyLists k).head = some p := (ho.rep.walk k).head_eq.trans (by rw [hL]; rfl)
      simp [listPopFront, hhead]
    · simp
    · have hrec := ih (k := k + 1) (by omega) (by omega)
      split <;> simp_all

/-- `alloc_pages`. -/
theorem allocPages {r : Option ℕ} {s' : BuddyState} {flags : BitVec 32} (ho : s.Owned L live)
    (hz : s.ZonesFit) (h : s.allocPages k flags = some (r, s')) :
    s'.validBuddyPfn = s.validBuddyPfn ∧ ∃ L', s'.Owned L' (r.toList.map (·, k) ++ live) := by
  rw [BuddyState.allocPages] at h
  split at h
  · obtain ⟨rfl, rfl⟩ := Prod.mk.inj (Option.some.inj h)
    exact ⟨rfl, L, ho⟩
  · obtain ⟨⟨r₁, s₁⟩, halloc, hr⟩ := Option.map_eq_some_iff.mp h
    obtain ⟨hv, L', ho', -⟩ := ho.allocPagesAux hz halloc
    split at hr
    · obtain ⟨rfl, rfl⟩ := Prod.mk.inj hr
      refine ⟨hv, L', { ho' with listed_block := fun h => ?_, live_block := fun h => ?_ }⟩
      · exact ⟨(ho'.listed_block h).aligned, (ho'.listed_block h).valid⟩
      · exact ⟨(ho'.live_block h).1, (ho'.live_block h).2.aligned, (ho'.live_block h).2.valid⟩
    · obtain ⟨rfl, rfl⟩ := Prod.mk.inj hr
      exact ⟨hv, L', ho'⟩

end Owned

end BuddyState

/-! ### Runs -/

/-- The allocator and the blocks its callers hold, each with the order it was asked for. -/
structure BuddySys where
  st : BuddyState
  live : List (ℕ × ℕ)

/-- What a caller can ask for. -/
inductive BuddyCall
  | allocPages (order : ℕ) (flags : BitVec 32)
  | freePages (page order : ℕ)

namespace BuddySys

/-- One call. -/
def exec (s : BuddySys) : BuddyCall → Option BuddySys
  | .allocPages order flags =>
    (s.st.allocPages order flags).map fun r => ⟨r.2, r.1.toList.map (·, order) ++ s.live⟩
  | .freePages page order => some ⟨s.st.freePages page order, s.live.erase (page, order)⟩

/-- A caller frees only what it holds, with the order it asked for. -/
def Allowed (s : BuddySys) : BuddyCall → Prop
  | .allocPages _ _ => True
  | .freePages page order => (page, order) ∈ s.live

instance (s : BuddySys) : (c : BuddyCall) → Decidable (s.Allowed c)
  | .allocPages _ _ => instDecidableTrue
  | .freePages page order => inferInstanceAs (Decidable ((page, order) ∈ s.live))

/-- The call takes no page in use for a free one and writes through no stale back pointer. -/
def Clean (s : BuddySys) : BuddyCall → Prop
  | .allocPages _ _ => True
  | .freePages page order => s.st.CleanFree (maxOrder + 1) page order

/-- No two blocks in use overlap; every free list ends, has as many blocks as its count says, and
none of them overlaps a block in use. -/
structure Good (s : BuddySys) : Prop where
  live_disj : s.live.Pairwise fun a b => Disjoint (Dyadic.block a.1 a.2) (Dyadic.block b.1 b.2)
  lists : ∀ k ≤ maxOrder, ∃ xs, Walk s.st.links.next (s.st.heads k) xs ∧
    (s.st.buddyLists k).count = xs.length ∧
    ∀ p ∈ xs, ∀ b ∈ s.live, Disjoint (Dyadic.block p k) (Dyadic.block b.1 b.2)

end BuddySys

/-- A consistent state with nothing in use: the free lists hold disjoint aligned blocks of zone
pages, `PAGE_FLAG_FREE` is set on exactly the heads of these with the order of their list, and the
counts are the lengths. -/
structure BuddyState.Consistent (s : BuddyState) (L : ℕ → List ℕ) : Prop where
  rep : Rep s.links s.heads L
  count : ∀ k ≤ maxOrder, (s.buddyLists k).count = (L k).length
  order_le : ∀ {k p}, p ∈ L k → k ≤ maxOrder
  free_iff : ∀ p, s.IsFree p ↔ ∃ k, p ∈ L k
  order : ∀ {k p}, p ∈ L k → s.buddyOrder p = k
  block : ∀ {k p}, p ∈ L k → s.ZoneBlock p k
  disj : ∀ {j k p q}, p ∈ L j → q ∈ L k → p ≠ q → Disjoint (Dyadic.block p j) (Dyadic.block q k)

theorem BuddyState.Consistent.owned {s : BuddyState} {L : ℕ → List ℕ} (h : s.Consistent L) :
    s.Owned L [] where
  rep := h.rep
  count := h.count
  order_le := h.order_le
  free hp := ⟨(h.free_iff _).mpr ⟨_, hp⟩, h.order hp⟩
  listed_block := h.block
  live_block hb := by simp at hb
  listed_disj := h.disj
  cross_disj _ hb := by simp at hb
  live_disj := List.Pairwise.nil

theorem BuddyState.Owned.good {s : BuddySys} {L : ℕ → List ℕ} (ho : s.st.Owned L s.live) :
    s.Good where
  live_disj := ho.live_disj
  lists k hk := ⟨L k, ho.rep.walk k, ho.count k hk, fun _ hp _ hb => ho.cross_disj hp hb⟩

/-- One allowed clean call keeps the invariant and the zones. -/
theorem BuddyState.Owned.exec {s s' : BuddySys} {c : BuddyCall} {L : ℕ → List ℕ}
    (ho : s.st.Owned L s.live) (hz : s.st.ZonesFit) (hok : s.Allowed c ∧ s.Clean c)
    (hstep : s.exec c = some s') : s'.st.ZonesFit ∧ ∃ L', s'.st.Owned L' s'.live := by
  cases c with
  | allocPages order flags =>
    obtain ⟨⟨r, st⟩, halloc, rfl⟩ := Option.map_eq_some_iff.mp hstep
    obtain ⟨hv, L', ho'⟩ := ho.allocPages hz halloc
    exact ⟨hz.congr hv, L', ho'⟩
  | freePages page order =>
    obtain rfl := Option.some.inj hstep
    obtain ⟨L', ho'⟩ := ho.freePages hz hok.1 hok.2
    exact ⟨hz.congr (BuddyState.validBuddyPfn_freePagesAux _ _ _ _), L', ho'⟩

/-- **Whole runs.** From a consistent state whose zones fit, every run of allowed clean calls ends
in a good state, in which every allocation of a valid order returns. -/
theorem buddy_run_good {st : BuddyState} {L : ℕ → List ℕ} {calls : List BuddyCall} {s : BuddySys}
    (hst : st.Consistent L) (hz : st.ZonesFit)
    (hrun : Run BuddySys.exec (fun s c => s.Allowed c ∧ s.Clean c) ⟨st, []⟩ calls s) :
    s.Good ∧ ∀ order ≤ maxOrder, ∀ flags, s.st.allocPages order flags ≠ none := by
  have hinv : s.st.ZonesFit ∧ ∃ L', s.st.Owned L' s.live := by
    refine hrun.invariant (P := fun s => s.st.ZonesFit ∧ ∃ L', s.st.Owned L' s.live) ?_
      ⟨hz, L, hst.owned⟩
    rintro s c s' ⟨hz, L, ho⟩ hok hstep
    exact ho.exec hz hok hstep
  obtain ⟨-, L', ho⟩ := hinv
  refine ⟨ho.good, fun order horder flags => ?_⟩
  rw [BuddyState.allocPages]
  split
  · simp
  · simpa [BuddyState.allocPagesNolock] using ho.allocPagesAux_ne_none horder (by omega)

/-! ### The smallest zone that shows the defect -/

/-- One zone of two pages, frames 2 and 3, listed as one block of order 1. -/
def buddyPair : BuddyState where
  links := ⟨fun _ => none, fun _ => none⟩
  flags p := if p = 2 then 1 else 0
  buddyOrder p := if p = 2 then 1 else 0
  buddyLists k := if k = 1 then ⟨some 2, 1⟩ else ⟨none, 0⟩
  buddyZones := [⟨2, 2⟩]
  memsets := []

/-- What the lists of `buddyPair` hold. -/
def buddyPairLists (k : ℕ) : List ℕ := if k = 1 then [2] else []

theorem mem_buddyPairLists {k p : ℕ} : p ∈ buddyPairLists k ↔ k = 1 ∧ p = 2 := by
  rw [buddyPairLists]
  split <;> simp_all

theorem validBuddyPfn_buddyPair {p : ℕ} :
    buddyPair.validBuddyPfn p = true ↔ 2 ≤ p ∧ p < 4 := by
  simp [BuddyState.validBuddyPfn, buddyPair]

theorem zonesFit_buddyPair : buddyPair.ZonesFit where
  below p hp := by
    have := validBuddyPfn_buddyPair.mp hp
    omega
  notAll := ⟨0, by decide, by decide⟩

theorem consistent_buddyPair : buddyPair.Consistent buddyPairLists where
  rep := by
    refine ⟨fun k => ?_, fun k => ?_, fun {i j x} hi hj => ?_⟩
    · simp only [buddyPairLists, BuddyState.heads, buddyPair]
      split <;> simp
    · rw [buddyPairLists]
      split
      · exact List.isChain_singleton _
      · exact List.isChain_nil
    · rw [(mem_buddyPairLists.mp hi).1, (mem_buddyPairLists.mp hj).1]
  count k _ := by
    simp only [buddyPairLists, buddyPair]
    split <;> rfl
  order_le h := by rw [(mem_buddyPairLists.mp h).1]; decide
  free_iff p := by
    simp only [mem_buddyPairLists, BuddyState.IsFree, buddyPair]
    split <;> simp_all [pageFlagFree]
  order h := by
    obtain ⟨rfl, rfl⟩ := mem_buddyPairLists.mp h
    rfl
  block h := by
    obtain ⟨rfl, rfl⟩ := mem_buddyPairLists.mp h
    exact ⟨by decide, fun q hq => validBuddyPfn_buddyPair.mpr (by simpa [Dyadic.block] using hq)⟩
  disj h h' hne := by
    rw [(mem_buddyPairLists.mp h).2, (mem_buddyPairLists.mp h').2] at hne
    exact absurd rfl hne

/-- **The defect.** Two allocations of one page empty the zone; the second pops frame 3 and leaves
it flagged free, so that freeing frame 2 merges it with the page still in use and lists both. -/
theorem buddy_run_not_good :
    ¬ ∀ (st : BuddyState) (L : ℕ → List ℕ) (calls : List BuddyCall) (s : BuddySys),
      st.Consistent L → Run BuddySys.exec BuddySys.Allowed ⟨st, []⟩ calls s → s.Good := by
  intro h
  have hrun : (Run.check BuddySys.exec BuddySys.Allowed ⟨buddyPair, []⟩
      [.allocPages 0 0, .allocPages 0 0, .freePages 2 0]).map
        (fun s => (s.st.heads 1, s.st.links.next 2, s.live)) = some (some 2, none, [(3, 0)]) := by
    decide
  obtain ⟨s, hs, heq⟩ := Option.map_eq_some_iff.mp hrun
  obtain ⟨hhead, hnext, hlive⟩ : s.st.heads 1 = some 2 ∧ s.st.links.next 2 = none ∧
      s.live = [(3, 0)] := by simpa using heq
  obtain ⟨xs, hw, -, hdisj⟩ :=
    (h _ _ _ s consistent_buddyPair (Run.of_check hs)).lists 1 (by decide)
  obtain rfl : xs = [2] := hw.unique ⟨hhead, hnext⟩
  have hd := hdisj 2 (by simp) (3, 0) (by simp [hlive])
  have hmem : 3 ∈ Dyadic.block 2 1 := by simp [Dyadic.block]
  exact Set.disjoint_left.mp hd hmem (by simp [Dyadic.block])

/-- Without flags, `alloc_pages` takes the lock and nothing else. -/
theorem BuddyState.allocPages_zero (s : BuddyState) (order : ℕ) :
    s.allocPages order 0 = s.allocPagesNolock order := by
  rw [allocPages, if_neg (by decide)]
  cases s.allocPagesNolock order <;> rfl

/-- One page is taken from `buddyPair`. The free call that gives it back merges it with the other one,
which is listed. -/
theorem exists_allocPagesNolock_buddyPair : ∃ m, buddyPair.allocPagesNolock 0 = some (some 2, m) ∧
    BuddySys.Clean ⟨m, [(2, 0)]⟩ (.freePages 2 0) := by
  have hfirst : (buddyPair.allocPagesNolock 0).map (fun r => (r.1, r.2.heads 0, r.2.links.next 3,
      r.2.links.prev 3, (r.2.removeFromFreelist 3).validBuddyPfn 0)) =
        some (some 2, some 3, none, none, false) := by decide
  obtain ⟨⟨p, m⟩, hm, heq⟩ := Option.map_eq_some_iff.mp hfirst
  obtain ⟨rfl, hhead, hnext, hprev, hvalid⟩ : p = some 2 ∧ m.heads 0 = some 3 ∧
      m.links.next 3 = none ∧ m.links.prev 3 = none ∧
      (m.removeFromFreelist 3).validBuddyPfn 0 = false := by simpa using heq
  refine ⟨m, hm, fun _ => ⟨⟨[3], ⟨hhead, hnext⟩, by decide⟩, fun _ y hy => ?_, fun h => ?_⟩⟩
  · rw [show asUint (getBuddy 2 0) = 3 from rfl, hprev] at hy
    simp at hy
  · have hv : (m.removeFromFreelist 3).validBuddyPfn 0 = true := h.1
    simp [hvalid] at hv

/-- A run that splits the block and merges it again. -/
theorem buddy_run_good_merge :
    ∃ s, Run BuddySys.exec (fun s c => s.Allowed c ∧ s.Clean c) ⟨buddyPair, []⟩
        [.allocPages 0 0, .freePages 2 0] s ∧
      s.Good ∧ ∀ order ≤ maxOrder, ∀ flags, s.st.allocPages order flags ≠ none := by
  obtain ⟨m, hm, hclean⟩ := exists_allocPagesNolock_buddyPair
  have hfirst : (BuddySys.mk buddyPair []).exec (.allocPages 0 0) = some ⟨m, [(2, 0)]⟩ := by
    rw [BuddySys.exec, BuddyState.allocPages_zero, hm]
    rfl
  have hrun : ∃ s, Run BuddySys.exec (fun s c => s.Allowed c ∧ s.Clean c) ⟨buddyPair, []⟩
      [.allocPages 0 0, .freePages 2 0] s :=
    ⟨_, .cons ⟨trivial, trivial⟩ hfirst (.cons ⟨List.mem_cons_self, hclean⟩ rfl (.nil _))⟩
  obtain ⟨s, hrun⟩ := hrun
  exact ⟨s, hrun, buddy_run_good consistent_buddyPair zonesFit_buddyPair hrun⟩

end GoofyOs
