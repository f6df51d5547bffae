import GoofyOs.BuddyInit
import GoofyOs.BuddyRun
import Mathlib.Algebra.BigOperators.Group.Finset.Piecewise
import Mathlib.Data.List.Flatten

/-!
# What `buddy_init` loses

`buddy_init` adds one to the index of a page twice when it frees it, so that every other page of a
region is never passed to `free_pages`. And for a frame from `2 ^ 32` on, `free_pages_nolock` takes
the page at the truncated number for its buddy.

This module determines for which tables nothing is lost. Freeing one page adds one to the number of
pages that the free lists hold, whatever is merged, so counting finds the pages that were not passed.
The pages that were merged with a wrong buddy are found by following the starts of blocks.

## Main definitions

* `Frees` — what `free_pages_nolock` does to the set of listed blocks
* `BuddyState.Lists` — the free lists, when nothing was ever allocated
* `Cover` — the listed blocks partition a set of pages
* `Unlucky` — some page is merged with a page at a truncated number
* `BuddyState.HoldsExactly`, `NothingLost` — the free lists hold the pages of a table, and the
  condition for it

## Main results

* `BuddyState.Lists.freePagesAux` — one call of `free_pages_nolock`
* `buddyInit_holdsExactly_iff` — nothing is lost if and only if every region has at most one page
  left, the counters do not overflow, and no page is unlucky
-/

namespace GoofyOs

open LinkedList ListHead

/-! ### The blocks on the free lists -/

/-- The buddy's frame number as `free_pages_nolock` computes it. -/
def buddyOf (pfn order : ℕ) : ℕ := asUint (getBuddy pfn order)

/-- `free_pages_nolock` of the block `(q, k)` takes the listed blocks `B` to `B'`. -/
inductive Frees : Set (ℕ × ℕ) → ℕ → ℕ → Set (ℕ × ℕ) → Prop
  | direct {B q k} (h : (buddyOf q k, k) ∈ B → k = maxOrder) : Frees B q k (insert (q, k) B)
  | merge {B q k B'} (h : (buddyOf q k, k) ∈ B) (hk : k ≠ maxOrder)
      (hrest : Frees (B \ {(buddyOf q k, k)}) (min q (buddyOf q k)) (k + 1) B') : Frees B q k B'

/-- The blocks on the lists. -/
def listedBlocks (L : ℕ → List ℕ) : Set (ℕ × ℕ) := {b | b.1 ∈ L b.2}

/-- The number of pages on the lists. -/
def listedPages (L : ℕ → List ℕ) : ℕ := ∑ k ∈ Finset.range (maxOrder + 1), (L k).length * 2 ^ k

section Lists

variable {L : ℕ → List ℕ} {k p q : ℕ}

theorem listedPages_update (hk : k ≤ maxOrder) (xs : List ℕ) :
    listedPages (Function.update L k xs) + (L k).length * 2 ^ k =
      listedPages L + xs.length * 2 ^ k := by
  have hmem : k ∈ Finset.range (maxOrder + 1) := Finset.mem_range.mpr (Nat.lt_succ_of_le hk)
  rw [listedPages, listedPages, ← Finset.add_sum_erase _ _ hmem, ← Finset.add_sum_erase _ _ hmem,
    Function.update_self]
  have hrest : ∑ j ∈ (Finset.range (maxOrder + 1)).erase k,
      (Function.update L k xs j).length * 2 ^ j =
        ∑ j ∈ (Finset.range (maxOrder + 1)).erase k, (L j).length * 2 ^ j := by
    refine Finset.sum_congr rfl fun j hj => ?_
    rw [Function.update_of_ne (Finset.ne_of_mem_erase hj)]
  omega

theorem listedBlocks_push : listedBlocks (Function.update L k (q :: L k)) =
    insert (q, k) (listedBlocks L) := by
  ext ⟨x, j⟩
  rw [Set.mem_insert_iff, Prod.mk.injEq]
  show x ∈ Function.update L k (q :: L k) j ↔ _ ∨ x ∈ L j
  rcases eq_or_ne j k with rfl | hj
  · rw [Function.update_self, List.mem_cons, and_iff_left rfl]
  · rw [Function.update_of_ne hj]
    exact ⟨Or.inr, fun h => h.resolve_left fun h => hj h.2⟩

theorem listedBlocks_erase (hnd : (L k).Nodup) :
    listedBlocks (Function.update L k ((L k).erase q)) = listedBlocks L \ {(q, k)} := by
  ext ⟨x, j⟩
  rw [Set.mem_sdiff, Set.mem_singleton_iff, Prod.mk.injEq]
  show x ∈ Function.update L k ((L k).erase q) j ↔ x ∈ L j ∧ _
  rcases eq_or_ne j k with rfl | hj
  · rw [Function.update_self, hnd.mem_erase_iff, and_comm, and_iff_left rfl]
  · rw [Function.update_of_ne hj]
    exact ⟨fun h => ⟨h, fun heq => hj heq.2⟩, And.left⟩

end Lists

namespace BuddyState

variable {s : BuddyState} {L : ℕ → List ℕ} {k p q n : ℕ}

/-- The free lists, when only `free_pages` was called: the `prev` field of a page is null unless the
page comes after another one, and `PAGE_FLAG_FREE` is set on the listed pages only. -/
structure Lists (s : BuddyState) (L : ℕ → List ℕ) : Prop where
  rep : Rep s.links s.heads L
  prev : ∀ x, (∀ k, x ∉ (L k).tail) → s.links.prev x = none
  free_iff : ∀ p, s.IsFree p ↔ ∃ k, p ∈ L k
  order : ∀ {k p}, p ∈ L k → s.buddyOrder p = k ∧ k ≤ maxOrder
  valid : ∀ {k p}, p ∈ L k → s.validBuddyPfn p = true

namespace Lists

/-- The merge test passes on listed blocks only. -/
theorem mergeTest_iff (h : s.Lists L) {b : ℕ} :
    s.MergeTest b k ↔ (b, k) ∈ listedBlocks L ∧ k ≠ maxOrder := by
  constructor
  · rintro ⟨-, hf, ho, hk⟩
    obtain ⟨j, hj⟩ := (h.free_iff b).mp hf
    obtain rfl : j = k := (h.order hj).1.symm.trans ho
    exact ⟨hj, hk⟩
  · rintro ⟨hb, hk⟩
    exact ⟨h.valid hb, (h.free_iff b).mpr ⟨k, hb⟩, (h.order hb).1, hk⟩

/-- The `prev` field of a front page is null. -/
theorem prev_front (h : s.Lists L) (hp : (L k).head? = some p) : s.links.prev p = none := by
  refine h.prev p fun j hj => ?_
  obtain rfl := h.rep.disj (List.mem_of_mem_head? hp) (List.mem_of_mem_tail hj)
  obtain ⟨ys, hys⟩ := List.head?_eq_some_iff.mp hp
  have hnd := h.rep.nodup k
  rw [hys] at hj hnd
  exact (List.nodup_cons.mp hnd).1 hj

theorem cleanUnlink (h : s.Lists L) : CleanUnlink s.links s.heads k p := by
  intro hhead y hy
  rw [h.prev_front ((h.rep.walk k).head_eq.symm.trans hhead)] at hy
  exact absurd hy (by simp)

/-- **Unlinking for a merge.** -/
theorem removeFromFreelist (h : s.Lists L) (hp : p ∈ L k) :
    (s.removeFromFreelist p).Lists (Function.update L k ((L k).erase p)) := by
  have hk := (h.order hp).1
  have hmem : ∀ {j q}, q ∈ Function.update L k ((L k).erase p) j ↔ q ∈ L j ∧ q ≠ p :=
    Owned.mem_update_erase h.rep hp
  subst hk
  refine ⟨?_, fun x hx => ?_, fun q => ?_, fun hq => h.order (hmem.mp hq).1,
    fun hq => h.valid (hmem.mp hq).1⟩
  · rw [heads_removeFromFreelist]
    exact h.rep.remove hp h.cleanUnlink
  · obtain ⟨as, bs, hL⟩ := List.append_of_mem hp
    have hnd : (as ++ p :: bs).Nodup := hL ▸ h.rep.nodup _
    have hpas : p ∉ as := fun hpas => (List.nodup_append.mp hnd).2.2 p hpas p List.mem_cons_self rfl
    have hnext : s.links.next p = bs.head? := (hL ▸ h.rep.walk (s.buddyOrder p)).next_eq
    have hself := hx (s.buddyOrder p)
    rw [Function.update_self, hL, List.erase_append_right _ hpas, List.erase_cons_head] at hself
    show (listRemoveNode s.links (s.heads (s.buddyOrder p)) p).1.prev x = none
    rw [listRemoveNode_prev, hnext]
    by_cases hxp : x = p
    · rw [if_pos hxp]
    rw [if_neg hxp]
    by_cases hfirst : bs.head? = some x
    · rw [if_pos hfirst]
      cases as with
      | nil => exact h.prev_front (k := s.buddyOrder p) (by rw [hL]; rfl)
      | cons a as => exact absurd (List.mem_append_right _ (List.mem_of_mem_head? hfirst)) hself
    · rw [if_neg hfirst]
      refine h.prev x fun j hj => ?_
      rcases eq_or_ne j (s.buddyOrder p) with rfl | hjk
      · rw [hL] at hj
        cases as with
        | nil =>
          cases bs with
          | nil => exact List.not_mem_nil hj
          | cons b bs =>
            exact hself ((List.mem_cons.mp hj).resolve_left fun heq => hfirst (heq ▸ rfl))
        | cons a as =>
          refine hself (List.mem_append.mpr ((List.mem_append.mp hj).imp_right fun hj => ?_))
          exact (List.mem_cons.mp hj).resolve_left hxp
      · exact hx j (by rwa [Function.update_of_ne hjk])
  · rw [isFree_removeFromFreelist, h.free_iff, and_comm, ← exists_and_right]
    exact exists_congr fun j => hmem.symm

/-- **Listing a block**, the path `direct_free`. -/
theorem directFree (h : s.Lists L) (hq : ∀ j, q ∉ L j) (hv : s.validBuddyPfn q = true)
    (hk : k ≤ maxOrder) : (s.directFree q k).Lists (Function.update L k (q :: L k)) := by
  have hmem : ∀ {j x}, x ∈ Function.update L k (q :: L k) j → x = q ∧ j = k ∨ x ≠ q ∧ x ∈ L j := by
    intro j x hx
    have hx : (x, j) ∈ listedBlocks (Function.update L k (q :: L k)) := hx
    rw [listedBlocks_push, Set.mem_insert_iff, Prod.mk.injEq] at hx
    exact hx.imp_right fun hx => ⟨fun heq => hq j (heq ▸ hx), hx⟩
  refine ⟨?_, fun x hx => ?_, fun x => ?_, fun {j x} hx => ?_, fun {j x} hx => ?_⟩
  · rw [heads_directFree]
    exact h.rep.push hq k
  · have hself := hx k
    rw [Function.update_self] at hself
    show (listPushFront s.links (s.heads k) q).1.prev x = none
    rw [listPushFront_prev, if_neg]
    · refine h.prev x fun j hj => ?_
      rcases eq_or_ne j k with rfl | hjk
      · exact hself (List.mem_of_mem_tail hj)
      · exact hx j (by rwa [Function.update_of_ne hjk])
    · rw [(h.rep.walk k).head_eq]
      exact fun hhead => hself (List.mem_of_mem_head? hhead)
  · rw [isFree_directFree, h.free_iff]
    constructor
    · rintro (rfl | ⟨j, hj⟩)
      · exact ⟨k, by rw [Function.update_self]; exact List.mem_cons_self⟩
      · refine ⟨j, ?_⟩
        rcases eq_or_ne j k with rfl | hjk
        · rw [Function.update_self]
          exact List.mem_cons_of_mem _ hj
        · rwa [Function.update_of_ne hjk]
    · rintro ⟨j, hj⟩
      exact (hmem hj).imp And.left fun hx => ⟨j, hx.2⟩
  · show Function.update s.buddyOrder q k x = j ∧ _
    rcases hmem hx with ⟨rfl, rfl⟩ | ⟨hne, hx⟩
    · exact ⟨Function.update_self _ _ _, hk⟩
    · rw [Function.update_of_ne hne]
      exact h.order hx
  · rcases hmem hx with ⟨rfl, -⟩ | ⟨-, hx⟩
    · exact hv
    · exact h.valid hx

/-- **`free_pages_nolock`** of an unlisted block. The number of listed pages grows by its size. -/
theorem freePagesAux (h : s.Lists L) (hq : ∀ j, q ∉ L j) (hv : s.validBuddyPfn q = true)
    (hk : k ≤ maxOrder) (hn : maxOrder < k + n) :
    ∃ L', (BuddyState.freePagesAux n s q k).Lists L' ∧
      Frees (listedBlocks L) q k (listedBlocks L') ∧ listedPages L' = listedPages L + 2 ^ k := by
  induction n generalizing s L q k with
  | zero => omega
  | succ n ih =>
    by_cases hm : s.MergeTest (asUint (getBuddy q k)) k
    · obtain ⟨hb, hne⟩ := h.mergeTest_iff.mp hm
      have hmem : asUint (getBuddy q k) ∈ L k := hb
      have hlt : k < maxOrder := Nat.lt_of_le_of_ne hk hne
      have hq' : ∀ j, min q (asUint (getBuddy q k)) ∉
          Function.update L k ((L k).erase (asUint (getBuddy q k))) j := by
        intro j hj
        obtain ⟨hj, hne⟩ := (Owned.mem_update_erase h.rep hmem).mp hj
        rcases min_choice q (asUint (getBuddy q k)) with heq | heq
        · exact hq j (heq ▸ hj)
        · exact hne heq
      have hv' : s.validBuddyPfn (min q (asUint (getBuddy q k))) = true := by
        rcases min_choice q (asUint (getBuddy q k)) with heq | heq
        · rw [heq]
          exact hv
        · rw [heq]
          exact h.valid hmem
      obtain ⟨L', h', hfrees, hpages⟩ := ih (h.removeFromFreelist hmem) hq' hv' hlt (by omega)
      rw [freePagesAux_of_merge hm]
      rw [listedBlocks_erase (h.rep.nodup k)] at hfrees
      refine ⟨L', h', .merge hb hne hfrees, ?_⟩
      have hupdate := listedPages_update (L := L) hk ((L k).erase (asUint (getBuddy q k)))
      have hlen : (L k).length * 2 ^ k =
          ((L k).erase (asUint (getBuddy q k))).length * 2 ^ k + 2 ^ k := by
        rw [← Nat.succ_mul, List.length_erase_of_mem hmem, Nat.succ_eq_add_one,
          Nat.sub_add_cancel (List.length_pos_of_mem hmem)]
      have hpow : 2 ^ (k + 1) = 2 ^ k + 2 ^ k := by rw [pow_succ, Nat.mul_two]
      omega
    · rw [freePagesAux_of_not_merge hm]
      refine ⟨_, h.directFree hq hv hk, ?_, ?_⟩
      · rw [listedBlocks_push]
        refine .direct fun hb => ?_
        by_contra hne
        exact hm (h.mergeTest_iff.mpr ⟨hb, hne⟩)
      · have hupdate := listedPages_update (L := L) hk (q :: L k)
        rw [List.length_cons, Nat.succ_mul] at hupdate
        omega

end Lists

theorem lists_zeroed (zones : List BuddyZone) :
    BuddyState.Lists { zeroedBuddy with buddyZones := zones } fun _ => [] where
  rep := Rep.empty _
  prev _ _ := rfl
  free_iff p := by
    have hfree : ¬ BuddyState.IsFree { zeroedBuddy with buddyZones := zones } p := fun h =>
      h (show (0 : BitVec 64) &&& pageFlagFree = 0 by decide)
    exact ⟨fun h => absurd h hfree, fun ⟨_, h⟩ => absurd h List.not_mem_nil⟩
  order h := absurd h List.not_mem_nil
  valid h := absurd h List.not_mem_nil

end BuddyState

/-! ### Merging with the right buddy -/

/-- The listed blocks partition the pages `S`. A block from frame `2 ^ 32` on is one page, and two
pages below that are merged when they are buddies. -/
structure Cover (B : Set (ℕ × ℕ)) (S : Set ℕ) : Prop where
  aligned : ∀ b ∈ B, 2 ^ b.2 ∣ b.1
  cover : ∀ p, p ∈ S ↔ ∃ b ∈ B, p ∈ Dyadic.block b.1 b.2
  disj : ∀ b ∈ B, ∀ b' ∈ B, ∀ p, p ∈ Dyadic.block b.1 b.2 → p ∈ Dyadic.block b'.1 b'.2 → b = b'
  order : ∀ b ∈ B, b.2 ≤ maxOrder ∧ (2 ^ 32 ≤ b.1 → b.2 = 0)
  merged : ∀ q < 2 ^ 32, (q, 0) ∈ B → (Dyadic.buddy q 0, 0) ∉ B

section Blocks

variable {B B' : Set (ℕ × ℕ)} {S W : Set ℕ} {k p q w : ℕ}

theorem cover_empty : Cover ∅ ∅ where
  aligned b hb := absurd hb (Set.notMem_empty b)
  cover p := ⟨fun hp => absurd hp (Set.notMem_empty p), fun ⟨b, hb, _⟩ => absurd hb (Set.notMem_empty b)⟩
  disj b hb := absurd hb (Set.notMem_empty b)
  order b hb := absurd hb (Set.notMem_empty b)
  merged q _ hq := absurd hq (Set.notMem_empty (q, 0))

theorem buddyOf_of_lt (hq : q < 2 ^ 32) (hk : k ≤ maxOrder) : buddyOf q k = Dyadic.buddy q k :=
  BuddyState.asUint_getBuddy hq hk

theorem buddyOf_lt (q k : ℕ) : buddyOf q k < 2 ^ 32 := Nat.mod_lt _ (Nat.two_pow_pos 32)

/-- The buddy of a page is in every larger aligned block with the page. -/
theorem buddy_mem_block (hd : 2 ^ (k + 1) ∣ q) (hp : p ∈ Dyadic.block q (k + 1)) :
    Dyadic.buddy p 0 ∈ Dyadic.block q (k + 1) := by
  obtain ⟨m, rfl⟩ := hd
  have hpow : 2 ^ (k + 1) = 2 * 2 ^ k := by rw [pow_succ, Nat.mul_comm]
  rw [Dyadic.mem_block, hpow, Nat.mul_assoc] at hp ⊢
  have hpos := Nat.two_pow_pos k
  rcases Dyadic.buddy_cases (p := p) (k := 0) (one_dvd p) with ⟨⟨n, hn⟩, hb⟩ | ⟨r, ⟨n, rfl⟩, rfl, hb⟩
  · rw [hb]
    omega
  · rw [hb]
    omega

/-- A page that is covered is one block if and only if its buddy is not covered. -/
theorem Cover.single_iff (hc : Cover B S) (hq : q < 2 ^ 32) :
    (q, 0) ∈ B ↔ q ∈ S ∧ Dyadic.buddy q 0 ∉ S := by
  constructor
  · intro hmem
    refine ⟨(hc.cover q).mpr ⟨_, hmem, Dyadic.self_mem_block q 0⟩, fun hbuddy => ?_⟩
    obtain ⟨⟨x, j⟩, hx, hbx⟩ := (hc.cover _).mp hbuddy
    cases j with
    | zero =>
      obtain rfl : x = Dyadic.buddy q 0 := by
        have hbx := Dyadic.mem_block.mp hbx
        exact Nat.le_antisymm hbx.1 (Nat.lt_succ_iff.mp hbx.2)
      exact hc.merged q hq hmem hx
    | succ j =>
      have hqx := buddy_mem_block (hc.aligned _ hx) hbx
      rw [Dyadic.buddy_buddy] at hqx
      have heq := hc.disj _ hmem _ hx q (Dyadic.self_mem_block q 0) hqx
      exact absurd (congrArg Prod.snd heq) (Nat.succ_ne_zero j).symm
  · rintro ⟨hmem, hbuddy⟩
    obtain ⟨⟨x, j⟩, hx, hqx⟩ := (hc.cover q).mp hmem
    cases j with
    | zero =>
      obtain rfl : x = q := by
        have hqx := Dyadic.mem_block.mp hqx
        exact Nat.le_antisymm hqx.1 (Nat.lt_succ_iff.mp hqx.2)
      exact hx
    | succ j => exact absurd ((hc.cover _).mpr ⟨_, hx, buddy_mem_block (hc.aligned _ hx) hqx⟩) hbuddy

/-- **A free that merges right** adds the pages of the block. -/
theorem Cover.frees (hc : Cover B S) (h : Frees B q k B') (hk : k ≤ maxOrder) (hd : 2 ^ k ∣ q)
    (hfresh : ∀ b ∈ B, ∀ p ∈ Dyadic.block b.1 b.2, p ∉ Dyadic.block q k)
    (hlow : q < 2 ^ 32 ∨ k = 0 ∧ (buddyOf q 0, 0) ∉ B) :
    Cover B' (S ∪ Dyadic.block q k) := by
  induction h generalizing S with
  | @direct B q k hdirect =>
    refine ⟨?_, fun p => ?_, ?_, ?_, ?_⟩
    · exact fun b hb => hb.elim (fun heq => heq ▸ hd) (hc.aligned b)
    · rw [Set.mem_union, hc.cover]
      constructor
      · rintro (⟨b, hb, hp⟩ | hp)
        · exact ⟨b, Or.inr hb, hp⟩
        · exact ⟨(q, k), Or.inl rfl, hp⟩
      · rintro ⟨b, rfl | hb, hp⟩
        · exact Or.inr hp
        · exact Or.inl ⟨b, hb, hp⟩
    · rintro b (rfl | hb) b' (rfl | hb') p hp hp'
      · rfl
      · exact absurd hp (hfresh b' hb' p hp')
      · exact absurd hp' (hfresh b hb p hp)
      · exact hc.disj b hb b' hb' p hp hp'
    · rintro b (rfl | hb)
      · exact ⟨hk, fun hge => (hlow.resolve_left (Nat.not_lt.mpr hge)).1⟩
      · exact hc.order b hb
    · rintro x hx (hxq | hxB) (hyq | hyB)
      · exact Dyadic.buddy_ne (one_dvd x) ((congrArg Prod.fst hyq).trans (congrArg Prod.fst hxq).symm)
      · obtain ⟨rfl, rfl⟩ := Prod.mk.inj hxq
        have hk0 := hdirect ((buddyOf_of_lt hx hk).symm ▸ hyB)
        exact absurd hk0 (by decide)
      · obtain ⟨hyx, rfl⟩ := Prod.mk.inj hyq
        have hbx : Dyadic.buddy q 0 = x := by rw [← hyx, Dyadic.buddy_buddy]
        have hq : q < 2 ^ 32 := by
          rw [← hyx, ← buddyOf_of_lt hx hk]
          exact buddyOf_lt x 0
        have hk0 := hdirect ((buddyOf_of_lt hq hk).symm ▸ hbx.symm ▸ hxB)
        exact absurd hk0 (by decide)
      · exact hc.merged x hx hxB hyB
  | @merge B q k B' hmem hne hrest ih =>
    have hq : q < 2 ^ 32 := by
      refine hlow.resolve_right fun ⟨hk0, hnot⟩ => ?_
      subst hk0
      exact hnot hmem
    have hbuddy := buddyOf_of_lt hq hk
    rw [hbuddy] at hmem ih
    have hlt : k + 1 ≤ maxOrder := Nat.lt_of_le_of_ne hk hne
    have hc' : Cover (B \ {(Dyadic.buddy q k, k)}) (S \ Dyadic.block (Dyadic.buddy q k) k) := by
      refine ⟨fun b hb => hc.aligned b hb.1, fun p => ?_,
        fun b hb b' hb' => hc.disj b hb.1 b' hb'.1, fun b hb => hc.order b hb.1,
        fun x hx hxB hyB => hc.merged x hx hxB.1 hyB.1⟩
      rw [Set.mem_sdiff, hc.cover]
      constructor
      · rintro ⟨⟨b, hb, hp⟩, hnot⟩
        refine ⟨b, ⟨hb, fun heq => hnot ?_⟩, hp⟩
        obtain rfl := Set.mem_singleton_iff.mp heq
        exact hp
      · rintro ⟨b, hb, hp⟩
        exact ⟨⟨b, hb.1, hp⟩, fun hp' => hb.2 (hc.disj b hb.1 _ hmem p hp hp')⟩
    have hblock := Dyadic.block_merge hd
    have hstep := ih hc' hlt (Dyadic.dvd_min_buddy hd) ?_ (Or.inl (Nat.lt_of_le_of_lt (min_le_left _ _) hq))
    · have hsub : Dyadic.block (Dyadic.buddy q k) k ⊆ S := fun p hp => (hc.cover p).mpr ⟨_, hmem, hp⟩
      have hset : S \ Dyadic.block (Dyadic.buddy q k) k ∪
          Dyadic.block (min q (Dyadic.buddy q k)) (k + 1) = S ∪ Dyadic.block q k := by
        rw [hblock, Set.union_comm (Dyadic.block q k), ← Set.union_assoc,
          Set.sdiff_union_of_subset hsub]
      rwa [hset] at hstep
    · intro b hb p hp hpq
      rw [hblock] at hpq
      rcases hpq with hpq | hpq
      · exact hfresh b hb.1 p hp hpq
      · exact hb.2 (hc.disj b hb.1 _ hmem p hp hpq)

/-- The blocks of a list start where the blocks before did, or at the freed one. -/
theorem Frees.starts (h : Frees B q k B') {b : ℕ × ℕ} (hb : b ∈ B') :
    b.1 = q ∨ ∃ b₀ ∈ B, b.1 = b₀.1 := by
  induction h with
  | direct _ =>
    rcases hb with rfl | hb
    · exact Or.inl rfl
    · exact Or.inr ⟨b, hb, rfl⟩
  | @merge B q k B' hmem _ _ ih =>
    rcases ih hb with heq | ⟨b₀, hb₀, heq⟩
    · rcases min_choice q (buddyOf q k) with hmin | hmin
      · exact Or.inl (heq.trans hmin)
      · exact Or.inr ⟨_, hmem, heq.trans hmin⟩
    · exact Or.inr ⟨b₀, hb₀.1, heq⟩

/-! ### Merging with a wrong buddy -/

/-- The frame is near one that was merged with a page of `W`. -/
def Touched (W : Set ℕ) (q : ℕ) : Prop := ∃ w ∈ W, buddyOf w 0 >>> 16 = q >>> 16

/-- After the pages `W` were merged with wrong buddies: none of them starts a block, and only blocks
near their buddies are not aligned. -/
structure Weak (B : Set (ℕ × ℕ)) (W : Set ℕ) : Prop where
  order : ∀ b ∈ B, b.2 ≤ maxOrder
  high : ∀ b ∈ B, 2 ^ 32 ≤ b.1 → b.2 = 0 ∧ b.1 ∉ W
  aligned : ∀ b ∈ B, b.1 < 2 ^ 32 → Touched W b.1 ∨ 2 ^ b.2 ∣ b.1

theorem Cover.weak (hc : Cover B S) : Weak B ∅ where
  order b hb := (hc.order b hb).1
  high b hb hge := ⟨(hc.order b hb).2 hge, Set.notMem_empty _⟩
  aligned b hb _ := Or.inr (hc.aligned b hb)

/-- Another page that starts no block. -/
theorem Weak.insert (hw : Weak B W) (hp : ∀ b ∈ B, b.1 ≠ p) : Weak B (insert p W) where
  order := hw.order
  high b hb hge := ⟨(hw.high b hb hge).1, fun hmem => (hw.high b hb hge).2 (hmem.resolve_left (hp b hb))⟩
  aligned b hb hlt :=
    (hw.aligned b hb hlt).imp_left fun ⟨w, hwW, heq⟩ => ⟨w, Set.mem_insert_of_mem _ hwW, heq⟩

/-- Merging leaves the upper bits of a start as they are. -/
theorem shiftRight_buddy (q : ℕ) (hk : k ≤ maxOrder) : Dyadic.buddy q k >>> 16 = q >>> 16 := by
  have hpow : 2 ^ k < 2 ^ 16 := Nat.pow_lt_pow_right (by decide) (Nat.lt_succ_of_le hk)
  have hzero : 2 ^ k >>> 16 = 0 := by
    rw [Nat.shiftRight_eq_div_pow]
    exact Nat.div_eq_of_lt hpow
  rw [Dyadic.buddy, Nat.shiftRight_xor_distrib, hzero, Nat.xor_zero]

/-- Freeing a block below `2 ^ 32`. -/
theorem Weak.frees (hw : Weak B W) (h : Frees B q k B') (hk : k ≤ maxOrder) (hq : q < 2 ^ 32)
    (hd : Touched W q ∨ 2 ^ k ∣ q) : Weak B' W := by
  induction h with
  | direct _ =>
    refine ⟨?_, ?_, ?_⟩
    · rintro b (rfl | hb)
      · exact hk
      · exact hw.order b hb
    · rintro b (rfl | hb) hge
      · exact absurd hq (Nat.not_lt.mpr hge)
      · exact hw.high b hb hge
    · rintro b (rfl | hb) hlt
      · exact hd
      · exact hw.aligned b hb hlt
  | @merge B q k B' hmem hne _ ih =>
    rw [buddyOf_of_lt hq hk] at ih
    have hw' : Weak (B \ {(Dyadic.buddy q k, k)}) W :=
      ⟨fun b hb => hw.order b hb.1, fun b hb => hw.high b hb.1, fun b hb => hw.aligned b hb.1⟩
    refine ih hw' (Nat.lt_of_le_of_ne hk hne) (Nat.lt_of_le_of_lt (min_le_left _ _) hq) ?_
    refine hd.imp (fun ⟨w, hwW, heq⟩ => ⟨w, hwW, heq.trans ?_⟩) Dyadic.dvd_min_buddy
    rcases min_choice q (Dyadic.buddy q k) with hmin | hmin
    · rw [hmin]
    · rw [hmin, shiftRight_buddy q hk]

/-- Freeing a page from `2 ^ 32` on. If it is merged, it is one of the pages to follow. -/
theorem Weak.frees_high (hw : Weak B W) (h : Frees B p 0 B') (hp : 2 ^ 32 ≤ p) (hpW : p ∉ W)
    (hfresh : ∀ b ∈ B, b.1 ≠ p) :
    (buddyOf p 0, 0) ∉ B ∧ Weak B' W ∨ (buddyOf p 0, 0) ∈ B ∧ Weak B' (Insert.insert p W) := by
  cases h with
  | direct hdirect =>
    refine Or.inl ⟨fun hmem => absurd (hdirect hmem) (by decide), ?_, ?_, ?_⟩
    · rintro b (rfl | hb)
      · exact Nat.zero_le _
      · exact hw.order b hb
    · rintro b (rfl | hb) hge
      · exact ⟨rfl, hpW⟩
      · exact hw.high b hb hge
    · rintro b (rfl | hb) hlt
      · exact absurd hlt (Nat.not_lt.mpr hp)
      · exact hw.aligned b hb hlt
  | merge hmem _ hrest =>
    have hlt := buddyOf_lt p 0
    have hmin : min p (buddyOf p 0) = buddyOf p 0 := min_eq_right (by omega)
    rw [hmin] at hrest
    have hw' := hw.insert hfresh
    have hw'' : Weak (B \ {(buddyOf p 0, 0)}) (Insert.insert p W) :=
      ⟨fun b hb => hw'.order b hb.1, fun b hb => hw'.high b hb.1, fun b hb => hw'.aligned b hb.1⟩
    exact Or.inr ⟨hmem, hw''.frees hrest (by decide) hlt (Or.inl ⟨p, Set.mem_insert _ _, rfl⟩)⟩

/-- **A page that was merged with a wrong buddy is lost**: not all such pages are in a block. -/
theorem Weak.exists_lost (hw : Weak B W) (hne : W.Nonempty) (hhigh : ∀ w ∈ W, 2 ^ 32 ≤ w) :
    ∃ w ∈ W, ∀ b ∈ B, w ∉ Dyadic.block b.1 b.2 := by
  by_contra hall
  have hcov : ∀ w ∈ W, ∃ b ∈ B, w ∈ Dyadic.block b.1 b.2 := by
    intro w hwW
    by_contra hno
    exact hall ⟨w, hwW, fun b hb hmem => hno ⟨b, hb, hmem⟩⟩
  -- such a block reaches over frame `2 ^ 32`
  have hover : ∀ w ∈ W, ∃ b ∈ B, b.1 < 2 ^ 32 ∧ w < b.1 + 2 ^ b.2 ∧ 2 ^ b.2 ≤ 2 ^ 15 := by
    intro w hwW
    obtain ⟨b, hb, hmem⟩ := hcov w hwW
    obtain ⟨hle, hlt⟩ := Dyadic.mem_block.mp hmem
    refine ⟨b, hb, ?_, hlt, Nat.pow_le_pow_right (by decide) (hw.order b hb)⟩
    by_contra hge
    obtain ⟨hzero, hnot⟩ := hw.high b hb (Nat.not_lt.mp hge)
    rw [hzero] at hlt
    obtain rfl : b.1 = w := Nat.le_antisymm hle (Nat.lt_succ_iff.mp hlt)
    exact hnot hwW
  have hnear : ∀ w ∈ W, buddyOf w 0 >>> 16 = 0 := by
    intro w hwW
    obtain ⟨b, -, hb, hlt, hpow⟩ := hover w hwW
    have hge := hhigh w hwW
    have hbuddy : buddyOf w 0 < 2 ^ 16 := by
      rw [buddyOf, BuddyState.getBuddy_eq, asUint]
      rcases Dyadic.buddy_cases (p := w) (k := 0) (one_dvd w) with ⟨-, heq⟩ | ⟨r, ⟨n, rfl⟩, rfl, heq⟩
      · rw [heq]
        omega
      · rw [heq]
        omega
    rw [Nat.shiftRight_eq_div_pow]
    exact Nat.div_eq_of_lt hbuddy
  obtain ⟨w, hwW⟩ := hne
  obtain ⟨b, hb, hlt, hwlt, hpow⟩ := hover w hwW
  have hge := hhigh w hwW
  rcases hw.aligned b hb hlt with ⟨w', hw', heq⟩ | hd
  · rw [hnear w' hw', Nat.shiftRight_eq_div_pow] at heq
    omega
  · have hd32 : 2 ^ b.2 ∣ 2 ^ 32 :=
      pow_dvd_pow 2 (Nat.le_trans (hw.order b hb) (by decide))
    have hsub : 2 ^ b.2 ≤ 2 ^ 32 - b.1 :=
      Nat.le_of_dvd (Nat.sub_pos_of_lt hlt) (Nat.dvd_sub hd32 hd)
    omega

/-! ### Freeing pages one after the other -/

/-- A page from frame `2 ^ 32` on comes after the page that is taken for its buddy, and that page is
one block. -/
def Unlucky (ps : List ℕ) : Prop :=
  ∃ as p, as ++ [p] <+: ps ∧ 2 ^ 32 ≤ p ∧ buddyOf p 0 ∈ as ∧ Dyadic.buddy (buddyOf p 0) 0 ∉ as

theorem unlucky_concat {ps : List ℕ} : Unlucky (ps ++ [p]) ↔
    Unlucky ps ∨ 2 ^ 32 ≤ p ∧ buddyOf p 0 ∈ ps ∧ Dyadic.buddy (buddyOf p 0) 0 ∉ ps := by
  constructor
  · rintro ⟨as, q, hpre, hq⟩
    rcases List.prefix_concat_iff.mp hpre with heq | hpre
    · obtain ⟨rfl, hcons⟩ := List.append_inj' heq rfl
      obtain rfl := (List.cons.inj hcons).1
      exact Or.inr hq
    · exact Or.inl ⟨as, q, hpre, hq⟩
  · rintro (⟨as, q, hpre, hq⟩ | hp)
    · exact ⟨as, q, hpre.trans (List.prefix_append _ _), hq⟩
    · exact ⟨ps, p, List.prefix_rfl, hp⟩

/-- What the lists hold after the pages `ps` were freed. -/
structure Tracked (ps : List ℕ) (B : Set (ℕ × ℕ)) : Prop where
  starts : ∀ b ∈ B, b.1 ∈ ps
  lucky : ¬ Unlucky ps → Cover B {p | p ∈ ps}
  unlucky : Unlucky ps → ∃ W, W.Nonempty ∧ (∀ w ∈ W, w ∈ ps ∧ 2 ^ 32 ≤ w) ∧ Weak B W

theorem tracked_nil : Tracked [] ∅ where
  starts b hb := absurd hb (Set.notMem_empty b)
  lucky _ := by
    have hset : {p : ℕ | p ∈ ([] : List ℕ)} = ∅ := Set.eq_empty_of_forall_notMem fun p => List.not_mem_nil
    rw [hset]
    exact cover_empty
  unlucky := by
    rintro ⟨as, p, hpre, -⟩
    exact absurd (List.prefix_nil.mp hpre) (by simp)

/-- **Freeing one more page.** -/
theorem Tracked.frees {ps : List ℕ} (ht : Tracked ps B) (h : Frees B p 0 B') (hp : p ∉ ps) :
    Tracked (ps ++ [p]) B' := by
  have hfresh : ∀ b ∈ B, b.1 ≠ p := fun b hb heq => hp (heq ▸ ht.starts b hb)
  have hset : {q | q ∈ ps ++ [p]} = {q | q ∈ ps} ∪ Dyadic.block p 0 := by
    ext q
    rw [Set.mem_ofPred_eq, List.mem_append, List.mem_singleton, Set.mem_union, Set.mem_ofPred_eq,
      Dyadic.mem_block, Nat.pow_zero, Nat.lt_succ_iff, ← Nat.le_antisymm_iff, eq_comm (a := p)]
  refine ⟨fun b hb => ?_, fun hnot => ?_, fun hun => ?_⟩
  · rcases h.starts hb with heq | ⟨b₀, hb₀, heq⟩
    · rw [heq]
      exact List.mem_append_right _ (List.mem_singleton_self p)
    · rw [heq]
      exact List.mem_append_left _ (ht.starts b₀ hb₀)
  · rw [unlucky_concat, not_or] at hnot
    have hc := ht.lucky hnot.1
    rw [hset]
    refine hc.frees h (Nat.zero_le _) (one_dvd p) (fun b hb q hq hqp => hp ?_) ?_
    · obtain rfl : p = q := by
        have hqp := Dyadic.mem_block.mp hqp
        exact Nat.le_antisymm hqp.1 (Nat.lt_succ_iff.mp hqp.2)
      exact (hc.cover p).mpr ⟨b, hb, hq⟩
    · rcases Nat.lt_or_ge p (2 ^ 32) with hlt | hge
      · exact Or.inl hlt
      · exact Or.inr ⟨rfl, fun hmem => hnot.2 ⟨hge, (hc.single_iff (buddyOf_lt p 0)).mp hmem⟩⟩
  · have hmono : ∀ W : Set ℕ, (∀ w ∈ W, w ∈ ps ∧ 2 ^ 32 ≤ w) → ∀ w ∈ W, w ∈ ps ++ [p] ∧ 2 ^ 32 ≤ w :=
      fun W hW w hw => ⟨List.mem_append_left _ (hW w hw).1, (hW w hw).2⟩
    by_cases hold : Unlucky ps
    · obtain ⟨W, hne, hW, hweak⟩ := ht.unlucky hold
      rcases Nat.lt_or_ge p (2 ^ 32) with hlt | hge
      · exact ⟨W, hne, hmono W hW, hweak.frees h (Nat.zero_le _) hlt (Or.inr (one_dvd p))⟩
      · rcases hweak.frees_high h hge (fun hpW => hp (hW p hpW).1) hfresh with ⟨-, hw'⟩ | ⟨-, hw'⟩
        · exact ⟨W, hne, hmono W hW, hw'⟩
        · refine ⟨_, Set.insert_nonempty p W, ?_, hw'⟩
          rintro w (rfl | hwW)
          · exact ⟨List.mem_append_right _ (List.mem_singleton_self w), hge⟩
          · exact hmono W hW w hwW
    · obtain ⟨hge, hbuddy⟩ := (unlucky_concat.mp hun).resolve_left hold
      have hc := ht.lucky hold
      have hmem := (hc.single_iff (buddyOf_lt p 0)).mpr hbuddy
      rcases hc.weak.frees_high h hge (Set.notMem_empty p) hfresh with ⟨hnot, -⟩ | ⟨-, hw'⟩
      · exact absurd hmem hnot
      · refine ⟨_, Set.insert_nonempty p ∅, ?_, hw'⟩
        rintro w (rfl | hw)
        · exact ⟨List.mem_append_right _ (List.mem_singleton_self w), hge⟩
        · exact absurd hw (Set.notMem_empty w)

end Blocks

/-- Freeing the pages `qs` after the pages `ps`. -/
theorem BuddyState.Lists.freeSingles {s : BuddyState} {L : ℕ → List ℕ} {ps qs : List ℕ}
    (h : s.Lists L) (ht : Tracked ps (listedBlocks L)) (hpages : listedPages L = ps.length)
    (hnd : (ps ++ qs).Nodup) (hv : ∀ q ∈ qs, s.validBuddyPfn q = true) :
    ∃ L', (GoofyOs.freeSingles s qs).Lists L' ∧ Tracked (ps ++ qs) (listedBlocks L') ∧
      listedPages L' = (ps ++ qs).length := by
  induction qs generalizing s L ps with
  | nil =>
    rw [List.append_nil]
    exact ⟨L, h, ht, hpages⟩
  | cons q qs ih =>
    rw [List.append_cons] at hnd ⊢
    have hq : q ∉ ps := fun hmem =>
      (List.nodup_append.mp (List.nodup_append.mp hnd).1).2.2 q hmem q (List.mem_singleton_self q) rfl
    have hfresh : ∀ j, q ∉ L j := fun j hj => hq (ht.starts (q, j) hj)
    obtain ⟨L₁, h₁, hfrees, hpages₁⟩ := h.freePagesAux (n := maxOrder + 1) hfresh
      (hv q List.mem_cons_self) (Nat.zero_le _) (by omega)
    refine ih h₁ (ht.frees hfrees hq) ?_ hnd fun r hr => ?_
    · rw [hpages₁, hpages, List.length_append]
      rfl
    · show (BuddyState.freePagesAux (maxOrder + 1) s q 0).validBuddyPfn r = true
      rw [BuddyState.validBuddyPfn_freePagesAux]
      exact hv r (List.mem_cons_of_mem _ hr)

/-- The free lists hold the pages `ps`: each is in exactly one block, and there are no more pages in
the blocks. -/
def BuddyState.HoldsExactly (s : BuddyState) (ps : List ℕ) : Prop :=
  ∃ L : ℕ → List ℕ, (∀ k ≤ maxOrder, Walk s.links.next (s.heads k) (L k)) ∧
    (∀ p ∈ ps, ∃! b : ℕ × ℕ, b.2 ≤ maxOrder ∧ b.1 ∈ L b.2 ∧ p ∈ Dyadic.block b.1 b.2) ∧
    listedPages L = ps.length

/-- When the pages `qs` of `ps` were freed. -/
theorem holdsExactly_iff {s : BuddyState} {L : ℕ → List ℕ} {ps qs : List ℕ} (h : s.Lists L)
    (ht : Tracked qs (listedBlocks L)) (hpages : listedPages L = qs.length) (hsub : qs.Sublist ps) :
    s.HoldsExactly ps ↔ qs = ps ∧ ¬ Unlucky ps := by
  constructor
  · rintro ⟨L', hwalk, hcover, hpages'⟩
    have hL : ∀ k ≤ maxOrder, L' k = L k := fun k hk => (hwalk k hk).unique (h.rep.walk k)
    have hsame : listedPages L' = listedPages L := by
      refine Finset.sum_congr rfl fun k hk => ?_
      rw [hL k (Nat.lt_succ_iff.mp (Finset.mem_range.mp hk))]
    have hlen : qs.length = ps.length := by rw [← hpages, ← hpages', hsame]
    obtain rfl := hsub.eq_of_length hlen
    refine ⟨rfl, fun hun => ?_⟩
    obtain ⟨W, hne, hW, hweak⟩ := ht.unlucky hun
    obtain ⟨w, hw, hlost⟩ := hweak.exists_lost hne fun w hw => (hW w hw).2
    obtain ⟨b, ⟨hb, hmem, hblock⟩, -⟩ := hcover w (hW w hw).1
    have hlisted : b.1 ∈ L b.2 := hL b.2 hb ▸ hmem
    exact hlost b hlisted hblock
  · rintro ⟨rfl, hun⟩
    have hc := ht.lucky hun
    refine ⟨L, fun k _ => h.rep.walk k, fun p hp => ?_, hpages⟩
    obtain ⟨b, hb, hmem⟩ := (hc.cover p).mp hp
    exact ⟨b, ⟨(hc.order b hb).1, hb, hmem⟩, fun b' hb' => hc.disj b' hb'.2.1 b hb p hb'.2.2 hmem⟩

/-! ### Counting the pages that are passed -/

section Counting

variable {α : Type*} {xs : List α} {xss yss : List (List α)} {skip : ℕ}

theorem everyOther_eq_self (h : xs.length ≤ 1) : everyOther xs = xs := by
  match xs, h with
  | [], _ => rfl
  | [_], _ => rfl

/-- Everything is passed if and only if each list has at most one element left. -/
theorem passedOf_eq_iff (skip : ℕ) (xss : List (List α)) :
    passedOf skip xss = xss.flatten.drop skip ↔ ∀ ys ∈ restOf skip xss, ys.length ≤ 1 := by
  rw [passedOf, ← flatten_restOf]
  induction restOf skip xss with
  | nil => exact ⟨fun _ ys hys => absurd hys List.not_mem_nil, fun _ => rfl⟩
  | cons ys yss ih =>
    rw [List.flatMap_cons, List.flatten_cons, List.forall_mem_cons]
    constructor
    · intro h
      have hsub : (yss.flatMap everyOther).Sublist (yss.flatMap id) :=
        List.Sublist.flatMap_right yss fun zs _ => everyOther_sublist zs
      rw [List.flatMap_id] at hsub
      have hlen := congrArg List.length h
      rw [List.length_append, List.length_append, length_everyOther] at hlen
      have hle := hsub.length_le
      have hone : ys.length ≤ 1 := by omega
      rw [everyOther_eq_self hone] at h
      exact ⟨hone, ih.mp (List.append_cancel_left h)⟩
    · rintro ⟨hone, hrest⟩
      rw [everyOther_eq_self hone, ih.mpr hrest]

theorem restOf_append : restOf skip (xss ++ yss) =
    restOf skip xss ++ restOf (skip - xss.flatten.length) yss := by
  induction xss generalizing skip with
  | nil => rfl
  | cons xs xss ih =>
    rw [List.cons_append, restOf, restOf, ih, List.flatten_cons, List.length_append, Nat.sub_sub]
    rfl

theorem restOf_replicate_nil (skip n : ℕ) :
    restOf skip (List.replicate n ([] : List α)) = List.replicate n [] := by
  induction n generalizing skip with
  | zero => rfl
  | succ n ih =>
    rw [List.replicate_succ, restOf, List.drop_nil, ih]

end Counting

/-- When each zone has at most one page left, the counters stay in range if there are fewer than
`2 ^ 31` pages, and fewer than `2 ^ 31 - 1` in a zone unless all pages are taken. -/
theorem zonesFitInt_iff (s : InitState) (skip : ℕ) (fss : List (List ℕ))
    (hone : ∀ fs ∈ restOf skip fss, fs.length ≤ 1) (hp : s.pageIdx < 2 ^ 31) :
    ZonesFitInt s skip fss ↔ s.pageIdx + fss.flatten.length < 2 ^ 31 ∧
      (fss.flatten.length ≤ skip ∨ ∀ fs ∈ fss, fs.length < 2 ^ 31 - 1) := by
  induction fss generalizing s skip with
  | nil =>
    refine ⟨fun _ => ⟨hp, Or.inl (Nat.zero_le _)⟩, fun _ => trivial⟩
  | cons fs fss ih =>
    rw [restOf, List.forall_mem_cons] at hone
    have hself := everyOther_eq_self hone.1
    have hrest := hone.1
    have hidx : (s.pass skip fs).pageIdx =
        s.pageIdx + min skip fs.length + (fs.drop skip).length := by
      rw [InitState.pass, hself]
    rw [List.length_drop] at hidx hrest
    have hidx' : (s.pass skip fs).pageIdx = s.pageIdx + fs.length := by omega
    rw [ZonesFitInt, ZoneFits, hself, hidx', List.length_drop, List.flatten_cons, List.length_append,
      List.forall_mem_cons]
    constructor
    · rintro ⟨⟨hi, hidx⟩, hfits⟩
      obtain ⟨hall, hor⟩ := (ih (s.pass skip fs) _ hone.2 (hidx' ▸ hidx)).mp hfits
      rw [hidx'] at hall
      refine ⟨by omega, ?_⟩
      rcases Nat.lt_or_ge skip fs.length with hlt | hge
      · refine Or.inr ⟨by omega, fun gs hgs => ?_⟩
        have hle := (List.sublist_flatten_of_mem hgs).length_le
        omega
      · rcases hor with hle | hlt
        · exact Or.inl (by omega)
        · rcases Nat.eq_zero_or_pos fss.flatten.length with hzero | hpos
          · exact Or.inl (by omega)
          · exact Or.inr ⟨by omega, hlt⟩
    · rintro ⟨hall, hor⟩
      refine ⟨⟨by omega, by omega⟩, (ih (s.pass skip fs) _ hone.2 (by omega)).mpr ⟨by omega, ?_⟩⟩
      rcases hor with hle | ⟨-, hlt⟩
      · exact Or.inl (by omega)
      · exact Or.inr hlt

/-! ### Which tables lose nothing -/

section Tables

variable {regions : List MemmapRegion} {hhdm n : ℕ}

/-- The frames of the zone of a region. -/
def MemmapRegion.zoneFrames (r : MemmapRegion) : List ℕ :=
  (BuddyZone.mk (r.base >>> 12) (asUint (r.size >>> 12))).framesFrom 0

theorem flatten_zoneFrames_eq : (zoneFrames regions).flatten = regions.flatMap MemmapRegion.zoneFrames := by
  rw [zoneFrames, zonesOf, List.map_append, List.map_map, List.map_replicate, List.flatten_append]
  show _ ++ (List.replicate _ []).flatten = _
  rw [List.flatten_replicate_nil, List.append_nil]
  rfl

theorem MemmapRegion.zoneFrames_sublist (r : MemmapRegion) : r.zoneFrames.Sublist r.frames := by
  have hle : asUint (r.size >>> 12) ≤ r.size / pageSize := by
    rw [Nat.shiftRight_eq_div_pow]
    exact Nat.mod_le _ _
  rw [zoneFrames, BuddyZone.framesFrom, frames, Nat.shiftRight_eq_div_pow]
  exact List.range'_sublist_right.mpr hle

theorem flatten_zoneFrames_sublist (regions : List MemmapRegion) :
    (zoneFrames regions).flatten.Sublist (frames regions) := by
  rw [flatten_zoneFrames_eq, frames]
  exact List.Sublist.flatMap_right regions fun r _ => r.zoneFrames_sublist

/-- If no page of a region is missing in its zone, the sizes were not truncated. -/
theorem counted_of_length (h : (zoneFrames regions).flatten.length = (frames regions).length) :
    Counted regions := by
  rw [flatten_zoneFrames_eq, frames] at h
  induction regions with
  | nil => exact fun r hr => absurd hr List.not_mem_nil
  | cons r rs ih =>
    have hr := r.zoneFrames_sublist.length_le
    have hrs := (flatten_zoneFrames_sublist rs).length_le
    rw [flatten_zoneFrames_eq, frames] at hrs
    rw [List.flatMap_cons, List.flatMap_cons, List.length_append, List.length_append] at h
    have hlen : r.zoneFrames.length = r.frames.length := by omega
    refine List.forall_mem_cons.mpr ⟨?_, ih (by omega)⟩
    have hzone : r.zoneFrames.length = asUint (r.size >>> 12) := List.length_range'
    have hframes : r.frames.length = r.size / pageSize := List.length_range'
    rw [← hframes, ← hlen, hzone]
    exact Nat.mod_lt _ (Nat.two_pow_pos 32)

/-- The pages of the zones are zone pages. -/
theorem validBuddyPfn_initState {pfn : ℕ} (h : pfn ∈ (zoneFrames regions).flatten) :
    (initState regions).buddy.validBuddyPfn pfn = true := by
  obtain ⟨fs, hfs, hpfn⟩ := List.mem_flatten.mp h
  obtain ⟨z, hz, rfl⟩ := List.mem_map.mp hfs
  have hmem := List.mem_range'_1.mp hpfn
  refine List.any_eq_true.mpr ⟨z, hz, ?_⟩
  simp only [Bool.and_eq_true, decide_eq_true_eq]
  omega

/-- The tables and numbers of taken pages for which `buddy_init` loses no page: every region has at
most one page left; there are fewer than `2 ^ 31` pages, and fewer than `2 ^ 31 - 1` in a region
unless all are taken; and no page that is left is unlucky. -/
structure NothingLost (regions : List MemmapRegion) (n : ℕ) : Prop where
  one : ∀ fs ∈ restOf n (regions.map MemmapRegion.frames), fs.length ≤ 1
  fits : (frames regions).length < 2 ^ 31 ∧
    ((frames regions).length ≤ n ∨ ∀ r ∈ regions, r.frames.length < 2 ^ 31 - 1)
  lucky : ¬ Unlucky ((frames regions).drop n)

/-- When the sizes are not truncated. -/
theorem nothingLost_iff (hc : Counted regions) : NothingLost regions n ↔
    ZonesFitInt (initState regions) n (zoneFrames regions) ∧
      passedOf n (zoneFrames regions) = (frames regions).drop n ∧
      ¬ Unlucky ((frames regions).drop n) := by
  have hzones : zoneFrames regions = regions.map MemmapRegion.frames ++
      List.replicate (maxBuddyZones - regions.length) [] := framesFrom_zonesOf hc
  have hone : (∀ fs ∈ restOf n (zoneFrames regions), fs.length ≤ 1) ↔
      ∀ fs ∈ restOf n (regions.map MemmapRegion.frames), fs.length ≤ 1 := by
    rw [hzones, restOf_append, restOf_replicate_nil, List.forall_mem_append, and_iff_left]
    intro fs hfs
    rw [List.eq_of_mem_replicate hfs]
    exact Nat.zero_le 1
  have hlt : (∀ fs ∈ zoneFrames regions, fs.length < 2 ^ 31 - 1) ↔
      ∀ r ∈ regions, r.frames.length < 2 ^ 31 - 1 := by
    rw [hzones, List.forall_mem_append, List.forall_mem_map, and_iff_left]
    intro fs hfs
    rw [List.eq_of_mem_replicate hfs]
    decide
  have hzero : (initState regions).pageIdx = 0 := rfl
  have hfits := zonesFitInt_iff (initState regions) n (zoneFrames regions)
  rw [hlt, hzero, Nat.zero_add, flatten_zoneFrames hc] at hfits
  have hpassed := passedOf_eq_iff n (zoneFrames regions)
  rw [flatten_zoneFrames hc] at hpassed
  constructor
  · rintro ⟨h, hfit, hun⟩
    exact ⟨(hfits (hone.mpr h) (by decide)).mpr hfit, hpassed.mpr (hone.mpr h), hun⟩
  · rintro ⟨hfit, heq, hun⟩
    have h := hpassed.mp heq
    exact ⟨hone.mp h, (hfits h (by decide)).mp hfit, hun⟩

end Tables

/-- The free lists hold what the bump allocator left if no counter overflows, every page is passed
and none is unlucky. -/
theorem exists_buddyInit_iff {regions : List MemmapRegion} (hhdm n : ℕ)
    (hwf : RegionsWellFormed regions) :
    (∃ s, (bootState regions hhdm n).buddyInit = some s ∧
      s.buddy.HoldsExactly ((frames regions).drop n)) ↔
        ZonesFitInt (initState regions) n (zoneFrames regions) ∧
          passedOf n (zoneFrames regions) = (frames regions).drop n ∧
          ¬ Unlucky ((frames regions).drop n) := by
  have hsub := passedOf_sublist n (zoneFrames regions)
  have hsub' := hsub.trans ((flatten_zoneFrames_sublist regions).drop n)
  have hnd := hwf.nodup_frames.sublist (hsub'.trans (List.drop_sublist _ _))
  have hnil : Tracked [] (listedBlocks fun _ => []) := by
    have hempty : (listedBlocks fun _ => []) = ∅ :=
      Set.eq_empty_of_forall_notMem fun b hb => List.not_mem_nil hb
    rw [hempty]
    exact tracked_nil
  have hzero : listedPages (fun _ => []) = 0 :=
    Finset.sum_eq_zero fun k _ => Nat.zero_mul (2 ^ k)
  have hrun : ∃ L, (freeSingles (initState regions).buddy (passedOf n (zoneFrames regions))).Lists L ∧
      Tracked ([] ++ passedOf n (zoneFrames regions)) (listedBlocks L) ∧
      listedPages L = ([] ++ passedOf n (zoneFrames regions)).length :=
    (BuddyState.lists_zeroed (zonesOf regions)).freeSingles hnil hzero hnd fun q hq =>
      validBuddyPfn_initState (List.mem_of_mem_drop (hsub.subset hq))
  obtain ⟨L, hlists, htracked, hpages⟩ := hrun
  rw [List.nil_append] at htracked hpages
  rw [← holdsExactly_iff hlists htracked hpages hsub']
  constructor
  · rintro ⟨s, hs, hholds⟩
    obtain ⟨hfits, rfl⟩ := buddyInit_eq.mp hs
    exact ⟨hfits, hholds⟩
  · rintro ⟨hfits, hholds⟩
    exact ⟨_, buddyInit_eq.mpr ⟨hfits, rfl⟩, hholds⟩

/-- **What `buddy_init` loses.** After `buddy_init` the free lists hold exactly the pages that the
bump allocator left, each in one block, if and only if nothing is lost in the sense of
`NothingLost`. -/
theorem buddyInit_holdsExactly_iff {regions : List MemmapRegion} (hhdm : ℕ) {n : ℕ}
    (hwf : RegionsWellFormed regions) (hn : n < 2 ^ 32) :
    (∃ s, (bootState regions hhdm n).buddyInit = some s ∧
      s.buddy.HoldsExactly ((frames regions).drop n)) ↔ NothingLost regions n := by
  have hframes : ∀ r ∈ regions, r.size / pageSize ≤ (frames regions).length := by
    intro r hr
    have hlen : r.frames.length = r.size / pageSize := List.length_range'
    rw [← hlen]
    exact (List.sublist_flatten_of_mem (List.mem_map_of_mem hr)).length_le
  rw [exists_buddyInit_iff hhdm n hwf]
  constructor
  · rintro ⟨hfits, heq, hun⟩
    refine (nothingLost_iff ?_).mpr ⟨hfits, heq, hun⟩
    rcases Nat.lt_or_ge n (frames regions).length with hlt | hge
    · refine counted_of_length ?_
      have hle := (passedOf_sublist n (zoneFrames regions)).length_le
      have hle' := (flatten_zoneFrames_sublist regions).length_le
      rw [heq, List.length_drop, List.length_drop] at hle
      omega
    · exact fun r hr => Nat.lt_of_le_of_lt (Nat.le_trans (hframes r hr) hge) hn
  · intro h
    refine (nothingLost_iff fun r hr => ?_).mp h
    exact Nat.lt_of_le_of_lt (hframes r hr) (Nat.lt_trans h.fits.1 (by decide))

/-! ### Two pages -/

/-- One region of two pages. -/
def twoPages : List MemmapRegion := [⟨0x1000, 0x2000⟩]

theorem wellFormed_twoPages : RegionsWellFormed twoPages where
  count := by decide
  aligned := by decide
  top := by decide
  disj := List.pairwise_singleton _ _

/-- When both pages are left, the second one is lost. -/
theorem not_buddyInit_holdsExactly : ¬ ∀ (regions : List MemmapRegion) (hhdm n : ℕ),
    RegionsWellFormed regions → n ≤ (frames regions).length → n < 2 ^ 32 →
      ∃ s, (bootState regions hhdm n).buddyInit = some s ∧
        s.buddy.HoldsExactly ((frames regions).drop n) := by
  intro h
  have hholds := h twoPages 0 0 wellFormed_twoPages (Nat.zero_le _) (by decide)
  have heq := ((exists_buddyInit_iff 0 0 wellFormed_twoPages).mp hholds).2.1
  exact absurd heq (by decide)

/-- When one of them is left, it is on the free lists. -/
theorem buddyInit_holdsExactly_twoPages :
    ∃ s, (bootState twoPages 0 1).buddyInit = some s ∧ s.buddy.HoldsExactly [2] := by
  refine (buddyInit_holdsExactly_iff 0 wellFormed_twoPages (by decide)).mpr ⟨?_, ?_, ?_⟩
  · decide
  · exact ⟨by decide, Or.inr (by decide)⟩
  · rintro ⟨as, p, hpre, -, hmem, -⟩
    have hlen : as.length + 1 ≤ 1 := by
      have hle := hpre.length_le
      rwa [List.length_append] at hle
    obtain rfl : as = [] := List.eq_nil_of_length_eq_zero (by omega)
    exact List.not_mem_nil hmem

end GoofyOs
