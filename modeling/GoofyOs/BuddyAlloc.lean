import GoofyOs.BuddyFree

/-!
# The splitting allocation

`alloc_pages_nolock` over free lists that are sequences. It takes the first block of the shortest
list that has room, and on the way back frees the upper half of what is left on each order. The free
does not merge that half with the lower one: the page that is returned may still have its FREE flag,
but its `buddy_order` is the order of the block it came from.

Freeing the block again merges these halves one after the other, so that all lists are what they
were. This takes the frame number of the buddy, which `free_pages_nolock` has in an `unsigned int`.

## Main definitions

* `BuddySeqs.allocPagesAux` — the allocation
* `BuddySeqs.Split` — the lists while a block is split
* `BuddySeqs.TakenOut`, `BuddySeqs.Restored` — what an allocation and a free after it should do

## Main results

* `BuddySeqs.alloc_pages_splits` — an allocation takes out its block
* `BuddySeqs.alloc_free_restores` — freeing it at once restores the lists, up to the frame numbers
* `BuddySeqs.Abstracts.allocPagesAux` — on properly linked lists the code does what is said here
-/

namespace GoofyOs

open LinkedList ListHead

namespace BuddySeqs

variable (s : BuddySeqs)

/-- `free_pages_nolock`. -/
def freePagesNolock (page order : ℕ) : Option BuddySeqs :=
  freePagesAux (maxOrder + 1) s page order

/-- `page->flags &= ~PAGE_FLAG_FREE`. -/
def clearFree (page : ℕ) : BuddySeqs :=
  { s with flags := Function.update s.flags page (s.flags page &&& ~~~pageFlagFree) }

/-- `list_pop_front` on a free list, which leaves `rest`, and `count--`. -/
def popFront (order : ℕ) (rest : List ℕ) : BuddySeqs :=
  { s with
    lists := Function.update s.lists order rest
    count := Function.update s.count order (asUint (s.count order + (2 ^ 32 - 1))) }

/-- `alloc_pages_nolock`, with a bound on the depth of the recursion. -/
def allocPagesAux : ℕ → BuddySeqs → ℕ → Option (Option ℕ × BuddySeqs)
  | 0, _, _ => none
  | n + 1, s, order =>
    if order > maxOrder then none
    else if s.count order > 0 then
      match s.lists order with
      | [] => none
      | ret :: rest => some (some ret, s.popFront order rest)
    else if order = maxOrder then some (none, s)
    else
      match allocPagesAux n s (order + 1) with
      | none => none
      | some (none, s) => some (none, s)
      | some (some ret, s) =>
        (s.freePagesNolock (getBuddy ret order) order).map fun s => (some ret, s.clearFree ret)

/-- A block was taken out of the listed pages. -/
structure TakenOut (s : BuddySeqs) (p k : ℕ) (t : BuddySeqs) : Prop where
  listed : t.WellListed
  apart : Disjoint (Dyadic.block p k) t.freePages
  pages : s.freePages = Dyadic.block p k ∪ t.freePages

/-- The block `p` of order `j` was at the front of its list, with `rest` after it. It is taken off,
and its upper halves of orders from `k` on are listed. Whether `p` itself is flagged is left
open. -/
structure Split (s : BuddySeqs) (p k j : ℕ) (rest : List ℕ) (t : BuddySeqs) : Prop where
  lists : ∀ i, t.lists i =
    if i = j then rest else if k ≤ i ∧ i < j then [p + 2 ^ i] else s.lists i
  count : ∀ i, t.count i =
    if i = j then s.count j - 1 else if k ≤ i ∧ i < j then 1 else s.count i
  free : ∀ q, q ≠ p → (t.IsFree q ↔ s.IsFree q ∨ ∃ i, k ≤ i ∧ i < j ∧ q = p + 2 ^ i)
  upper : ∀ i, k ≤ i → i < j → t.buddyOrder (p + 2 ^ i) = i
  order : ∀ q, s.IsFree q → t.buddyOrder q = s.buddyOrder q
  zones : t.buddyZones = s.buddyZones

/-- The same blocks on every list in the same sequence, the same counts, and the same flags. -/
structure Restored (s t : BuddySeqs) : Prop where
  lists : t.lists = s.lists
  count : t.count = s.count
  free : ∀ q, t.IsFree q ↔ s.IsFree q

variable {s} {t : BuddySeqs} {n k p q i j : ℕ} {rest : List ℕ}

/-- Nothing inside a listed block is flagged free. -/
theorem not_isFree_of_mem_block (hl : s.WellListed) (hm : s.WellMarked) (hp : p ∈ s.lists j)
    (hq : q ∈ Dyadic.block p j) (hne : q ≠ p) : ¬s.IsFree q := by
  intro hfree
  obtain ⟨i, hi⟩ := (hm.free q).mp hfree
  have hdisj : Disjoint (Dyadic.block q i) (Dyadic.block p j) :=
    hl.merged.disjoint (show (q, i) ∈ s.blocks from hi) (show (p, j) ∈ s.blocks from hp)
      fun heq => hne (congrArg Prod.fst heq)
  exact Set.disjoint_left.mp hdisj (Dyadic.self_mem_block q i) hq

theorem isFree_clearFree : (s.clearFree p).IsFree q ↔ q ≠ p ∧ s.IsFree q := by
  rcases eq_or_ne q p with rfl | hq
  · simp [IsFree, clearFree, BuddyState.clear_pageFlagFree]
  · simp [IsFree, clearFree, hq]

/-- The upper half of order `i` lies in the block. -/
theorem upper_mem_block (p : ℕ) (hij : i < j) : p + 2 ^ i ∈ Dyadic.block p j :=
  Dyadic.mem_block.mpr ⟨Nat.le_add_right _ _,
    Nat.add_lt_add_left (Nat.pow_lt_pow_right (by decide) hij) p⟩

theorem ne_upper (p i : ℕ) : p + 2 ^ i ≠ p := by
  have := Nat.two_pow_pos i
  omega

/-! ### States with given blocks -/

/-- The state in which the blocks `bs` are listed, each with its order. -/
def ofBlocks (zones : List BuddyZone) (bs : List (ℕ × ℕ)) : BuddySeqs where
  lists k := (bs.filter (·.2 = k)).map Prod.fst
  count k := (bs.filter (·.2 = k)).length
  flags p := if p ∈ bs.map Prod.fst then pageFlagFree else 0
  buddyOrder p := ((bs.find? (·.1 = p)).map Prod.snd).getD 0
  buddyZones := zones

/-- Blocks that a consistent state can have: the conditions can be evaluated. -/
structure BlocksOk (zones : List BuddyZone) (bs : List (ℕ × ℕ)) : Prop where
  order_le : ∀ b ∈ bs, b.2 ≤ maxOrder
  aligned : ∀ b ∈ bs, b.1 % 2 ^ b.2 = 0
  apart : bs.Pairwise fun b c => b.1 + 2 ^ b.2 ≤ c.1 ∨ c.1 + 2 ^ c.2 ≤ b.1
  unmerged : ∀ b ∈ bs, b.2 < maxOrder → (Dyadic.buddy b.1 b.2, b.2) ∉ bs
  zone : ∀ b ∈ bs, ∃ z ∈ zones, z.pfnBase ≤ b.1 ∧ b.1 + 2 ^ b.2 ≤ z.pfnBase + z.size

section OfBlocks

variable {zones : List BuddyZone} {bs : List (ℕ × ℕ)}

theorem mem_ofBlocks : p ∈ (ofBlocks zones bs).lists k ↔ (p, k) ∈ bs := by
  simp [ofBlocks]

theorem BlocksOk.disjoint (h : BlocksOk zones bs) {b c : ℕ × ℕ} (hb : b ∈ bs) (hc : c ∈ bs)
    (hne : b ≠ c) : Disjoint (Dyadic.block b.1 b.2) (Dyadic.block c.1 c.2) := by
  have hsymm : Std.Symm fun b c : ℕ × ℕ => b.1 + 2 ^ b.2 ≤ c.1 ∨ c.1 + 2 ^ c.2 ≤ b.1 :=
    ⟨fun _ _ => Or.symm⟩
  refine Set.disjoint_left.mpr fun q hqb hqc => ?_
  have hqb := Dyadic.mem_block.mp hqb
  have hqc := Dyadic.mem_block.mp hqc
  have := h.apart.forall hb hc hne
  omega

/-- Listed blocks with the same first page are the same. -/
theorem BlocksOk.inj (h : BlocksOk zones bs) (hk : (p, k) ∈ bs) (hj : (p, j) ∈ bs) : k = j := by
  by_contra hne
  exact Dyadic.not_disjoint_of_start p k j
    (h.disjoint hk hj fun heq => hne (congrArg Prod.snd heq))

theorem BlocksOk.consistent (h : BlocksOk zones bs) : (ofBlocks zones bs).Consistent where
  nodup k := by
    have hnd : bs.Nodup := by
      refine h.apart.imp fun {b c} hbc heq => ?_
      have := Nat.two_pow_pos b.2
      subst heq
      omega
    refine (hnd.filter _).map_on fun b hb c hc heq => Prod.ext heq ?_
    simp only [List.mem_filter, decide_eq_true_eq] at hb hc
    rw [hb.2, hc.2]
  merged := by
    have hblocks : (ofBlocks zones bs).blocks = {b | b ∈ bs} := Set.ext fun b => mem_ofBlocks
    rw [hblocks]
    exact ⟨h.order_le, fun b hb => Nat.dvd_of_mod_eq_zero (h.aligned b hb),
      fun b hb c hc hne => h.disjoint hb hc hne, h.unmerged⟩
  zone q hq := by
    obtain ⟨⟨p, k⟩, hb, hq⟩ := Dyadic.mem_cover.mp hq
    obtain ⟨z, hz, hlo, hhi⟩ := h.zone (p, k) (mem_ofBlocks.mp hb)
    have hq := Dyadic.mem_block.mp hq
    refine List.any_eq_true.mpr ⟨z, hz, ?_⟩
    simp only [Bool.and_eq_true, decide_eq_true_eq]
    dsimp only at hlo hhi hq
    omega
  free p := by
    have hiff : (ofBlocks zones bs).IsFree p ↔ p ∈ bs.map Prod.fst := by
      by_cases hp : p ∈ bs.map Prod.fst
      · simp only [IsFree, ofBlocks, hp, iff_true]
        decide
      · simp only [IsFree, ofBlocks, hp, iff_false]
        decide
    simp only [hiff, mem_ofBlocks, List.mem_map, Prod.exists, exists_and_right, exists_eq_right]
  order {p k} hp := by
    have hp := mem_ofBlocks.mp hp
    show ((bs.find? (·.1 = p)).map Prod.snd).getD 0 = k
    cases hfind : bs.find? (·.1 = p) with
    | none =>
      have hne := List.find?_eq_none.mp hfind (p, k) hp
      simp at hne
    | some b =>
      obtain ⟨q, j⟩ := b
      have hq : q = p := by simpa using List.find?_some hfind
      subst hq
      exact h.inj (List.mem_of_find?_eq_some hfind) hp
  count k _ := by simp [ofBlocks]

end OfBlocks

/-! ### Splitting -/

/-- **Popping** the block `p` of order `j`. -/
theorem split_popFront (hl : s.WellListed) (hj : j ≤ maxOrder) (hc : s.count j < 2 ^ 32)
    (hp : s.lists j = p :: rest) : Split s p j j rest (s.popFront j rest) where
  lists i := by
    simp only [popFront, Function.update_apply]
    split
    · rfl
    · rw [if_neg (by omega)]
  count i := by
    have hpos : 0 < s.count j := by
      rw [hl.count j hj, hp]
      exact Nat.succ_pos _
    simp only [popFront, Function.update_apply, asUint_pred hpos hc]
    split
    · rfl
    · rw [if_neg (by omega)]
  free q _ := ⟨Or.inl, fun h => h.resolve_right fun ⟨i, hi, hi', _⟩ => by omega⟩
  upper i hi hi' := by omega
  order _ _ := rfl
  zones := rfl

theorem takenOut_popFront (hl : s.WellListed) (hj : j ≤ maxOrder) (hc : s.count j < 2 ^ 32)
    (hp : s.lists j = p :: rest) : TakenOut s p j (s.popFront j rest) := by
  have hmem : (p, j) ∈ s.blocks := mem_blocks.mpr (hp ▸ List.mem_cons_self)
  have hblocks : (s.popFront j rest).blocks = s.blocks \ {(p, j)} := by
    have herase := listedBlocks_erase (q := p) (hl.nodup j)
    rwa [hp, List.erase_cons_head] at herase
  have hsplit := split_popFront hl hj hc hp
  refine ⟨⟨fun i => ?_, ?_, fun i hi => ?_⟩, ?_, ?_⟩
  · rw [hsplit.lists]
    have hnd := hl.nodup j
    rw [hp] at hnd
    split
    · exact (List.nodup_cons.mp hnd).2
    · rw [if_neg (by omega)]
      exact hl.nodup i
  · rw [hblocks]
    exact hl.merged.subset Set.sdiff_subset
  · rw [hsplit.lists, hsplit.count]
    split
    · rw [hl.count j hj, hp]
      rfl
    · rw [if_neg (by omega), if_neg (by omega), hl.count i hi]
  · rw [freePages, hblocks]
    exact hl.merged.disjoint_diff hmem
  · rw [freePages, freePages, hblocks]
    exact Dyadic.cover_diff hmem

/-- While a block is split, no page passes the test before a merge at the order of the next half. -/
theorem Split.not_mergeTest (h : Split s p (k + 1) j rest t) (hm : s.WellMarked)
    (hp : s.lists j = p :: rest) (hempty : s.lists k = []) : ¬t.MergeTest q k := by
  rintro ⟨-, hfree, horder, -⟩
  -- a page that was free before has the order of its list, and list `k` was empty
  have hold : ¬s.IsFree q := by
    intro hq
    have hmem := hm.mem_lists_of_free hq
    rw [← h.order q hq, horder, hempty] at hmem
    exact absurd hmem List.not_mem_nil
  have hne : q ≠ p := by
    rintro rfl
    exact hold ((hm.free q).mpr ⟨j, hp ▸ List.mem_cons_self⟩)
  obtain ⟨i, hi, hij, rfl⟩ := ((h.free q hne).mp hfree).resolve_left hold
  have := h.upper i hi hij
  omega

/-- **The next half** is listed, and the flag of the lower one cleared. -/
theorem Split.directFree (h : Split s p (k + 1) j rest t) (hkj : k < j) (hempty : s.lists k = [])
    (hcount : s.count k = 0) (hnew : ¬s.IsFree (p + 2 ^ k)) :
    Split s p k j rest ((t.directFree (p + 2 ^ k) k).clearFree p) where
  lists i := by
    have hk := h.lists k
    rw [if_neg (by omega), if_neg (by omega), hempty] at hk
    simp only [clearFree, BuddySeqs.directFree, Function.update_apply, hk]
    split
    · next heq =>
      subst heq
      rw [if_neg (by omega), if_pos ⟨le_rfl, hkj⟩]
    · rw [h.lists i]
      exact if_congr Iff.rfl rfl (if_congr (by omega) rfl rfl)
  count i := by
    have hk := h.count k
    rw [if_neg (by omega), if_neg (by omega), hcount] at hk
    simp only [clearFree, BuddySeqs.directFree, Function.update_apply, hk]
    split
    · next heq =>
      subst heq
      rw [if_neg (by omega), if_pos ⟨le_rfl, hkj⟩]
      rfl
    · rw [h.count i]
      exact if_congr Iff.rfl rfl (if_congr (by omega) rfl rfl)
  free q hq := by
    rw [isFree_clearFree, isFree_directFree, h.free q hq]
    constructor
    · rintro ⟨-, rfl | hq | ⟨i, hi, hij, rfl⟩⟩
      · exact Or.inr ⟨k, le_rfl, hkj, rfl⟩
      · exact Or.inl hq
      · exact Or.inr ⟨i, by omega, hij, rfl⟩
    · rintro (hq' | ⟨i, hi, hij, rfl⟩)
      · exact ⟨hq, Or.inr (Or.inl hq')⟩
      · rcases Nat.eq_or_lt_of_le hi with rfl | hi
        · exact ⟨hq, Or.inl rfl⟩
        · exact ⟨hq, Or.inr (Or.inr ⟨i, hi, hij, rfl⟩)⟩
  upper i hi hij := by
    simp only [clearFree, BuddySeqs.directFree, Function.update_apply]
    split
    · next heq =>
      exact (Nat.pow_right_injective le_rfl (Nat.add_left_cancel heq)).symm
    · next hne =>
      refine h.upper i (Nat.lt_of_le_of_ne hi ?_) hij
      rintro rfl
      exact hne rfl
  order q hq := by
    have hne : q ≠ p + 2 ^ k := by
      rintro rfl
      exact hnew hq
    simp only [clearFree, BuddySeqs.directFree, Function.update_of_ne hne]
    exact h.order q hq
  zones := h.zones

/-- Listing the upper half leaves the lower one taken out. -/
theorem TakenOut.directFree (h : TakenOut s p (k + 1) t) (hk : k < maxOrder)
    (hp : 2 ^ (k + 1) ∣ p) (hempty : t.lists k = []) :
    TakenOut s p k ((t.directFree (p + 2 ^ k) k).clearFree p) := by
  have hapart := h.apart
  rw [Dyadic.block_succ, Set.disjoint_union_left] at hapart
  have hdvd : 2 ^ k ∣ p + 2 ^ k :=
    (Nat.dvd_add_left (dvd_refl _)).mpr ((pow_dvd_pow 2 (Nat.le_succ k)).trans hp)
  have hlisted : (t.directFree (p + 2 ^ k) k).WellListed := by
    refine h.listed.directFree ?_ hk.le hdvd hapart.2 fun _ => ?_
    · rw [hempty]
      decide
    · rw [hempty]
      exact List.not_mem_nil
  refine ⟨⟨hlisted.nodup, hlisted.merged, hlisted.count⟩, ?_, ?_⟩
  · change Disjoint _ (t.directFree (p + 2 ^ k) k).freePages
    rw [freePages_directFree, Set.disjoint_union_right]
    exact ⟨Dyadic.disjoint_halves p k, hapart.1⟩
  · change _ = _ ∪ (t.directFree (p + 2 ^ k) k).freePages
    rw [freePages_directFree, ← Set.union_assoc, ← Dyadic.block_succ]
    exact h.pages

/-! ### The whole call -/

theorem allocPagesAux_of_cons (hk : k ≤ maxOrder) (hcount : 0 < s.count k)
    (hp : s.lists k = p :: rest) :
    allocPagesAux (n + 1) s k = some (some p, s.popFront k rest) := by
  rw [allocPagesAux, if_neg (Nat.not_lt.mpr hk), if_pos hcount, hp]

theorem allocPagesAux_of_nil (hk : k < maxOrder) (hcount : s.count k = 0) :
    allocPagesAux (n + 1) s k = (allocPagesAux n s (k + 1)).bind fun r =>
      match r with
      | (none, s) => some (none, s)
      | (some ret, s) =>
        (s.freePagesNolock (getBuddy ret k) k).map fun s => (some ret, s.clearFree ret) := by
  rw [allocPagesAux, if_neg (by omega), if_neg (by omega), if_neg hk.ne]
  rcases allocPagesAux n s (k + 1) with - | ⟨- | ret, s⟩ <;> rfl

/-- **An allocation of any depth.** The induction follows the recursion up to the order `j` of the
first list with a block, and the halves are listed on the way back. -/
theorem allocPagesAux_spec (hl : s.WellListed) (hm : s.WellMarked) (hc : s.count j < 2 ^ 32)
    (hj : j ≤ maxOrder) (hp : s.lists j = p :: rest) (hkj : k ≤ j)
    (hempty : ∀ i, k ≤ i → i < j → s.lists i = []) (hn : j < k + n) :
    ∃ t, allocPagesAux n s k = some (some p, t) ∧ Split s p k j rest t ∧ TakenOut s p k t := by
  have hmem : p ∈ s.lists j := hp ▸ List.mem_cons_self
  induction n generalizing k with
  | zero => omega
  | succ n ih =>
    rcases Nat.eq_or_lt_of_le hkj with rfl | hlt
    · have hpos : 0 < s.count k := by
        rw [hl.count k hj, hp]
        exact Nat.succ_pos _
      exact ⟨_, allocPagesAux_of_cons hj hpos hp, split_popFront hl hj hc hp,
        takenOut_popFront hl hj hc hp⟩
    · have hnil := hempty k le_rfl hlt
      have hcount : s.count k = 0 := by
        rw [hl.count k (by omega), hnil]
        rfl
      obtain ⟨t, hrun, hsplit, htaken⟩ := ih hlt (fun i hi => hempty i (by omega)) (by omega)
      have hdvd : 2 ^ (k + 1) ∣ p := (pow_dvd_pow 2 hlt).trans (hl.merged.aligned (p, j) hmem)
      have hbuddy : getBuddy p k = p + 2 ^ k := by
        rw [BuddyState.getBuddy_eq, Dyadic.buddy_of_dvd hdvd]
      have hnew := not_isFree_of_mem_block hl hm hmem (upper_mem_block p hlt) (ne_upper p k)
      have hfree : t.freePagesNolock (p + 2 ^ k) k = some (t.directFree (p + 2 ^ k) k) :=
        freePagesAux_of_not_merge (hsplit.not_mergeTest hm hp hnil)
      have hnil' : t.lists k = [] := by
        rw [hsplit.lists, if_neg hlt.ne, if_neg (by omega), hnil]
      refine ⟨_, ?_, hsplit.directFree hlt hnil hcount hnew,
        htaken.directFree (by omega) hdvd hnil'⟩
      rw [allocPagesAux_of_nil (by omega) hcount, hrun]
      simp only [Option.bind_some, hbuddy, hfree, Option.map_some]

/-- Without a block of the order or more the allocation fails and changes nothing. -/
theorem allocPagesAux_none (hl : s.WellListed) (hk : k ≤ maxOrder)
    (hempty : ∀ i, k ≤ i → i ≤ maxOrder → s.lists i = []) (hn : maxOrder < k + n) :
    allocPagesAux n s k = some (none, s) := by
  induction n generalizing k with
  | zero => omega
  | succ n ih =>
    have hcount : s.count k = 0 := by
      rw [hl.count k hk, hempty k le_rfl hk]
      rfl
    rcases Nat.eq_or_lt_of_le hk with rfl | hlt
    · rw [allocPagesAux, if_neg (lt_irrefl _), if_neg (by omega), if_pos rfl]
    · rw [allocPagesAux_of_nil hlt hcount, ih hlt (fun i hi => hempty i (by omega)) (by omega)]
      rfl

/-- **Splitting allocation.** An allocation fails, and changes nothing, when no listed block has the
order or more. Otherwise it returns an aligned page `p` whose block lies in a listed one of the
smallest order that has any, the pages of that block are the ones that are not listed any more, and
the lists are well formed. Any bound that reaches past `MAX_ORDER` is enough. -/
theorem alloc_pages_splits (s : BuddySeqs) (k : ℕ) (hl : s.WellListed) (hm : s.WellMarked)
    (hc : ∀ j, s.count j < 2 ^ 32) (hk : k ≤ maxOrder) (n : ℕ) (hn : maxOrder < k + n) :
    ((∀ j, k ≤ j → j ≤ maxOrder → s.lists j = []) → allocPagesAux n s k = some (none, s)) ∧
      ∀ j, k ≤ j → j ≤ maxOrder → s.lists j ≠ [] → (∀ i, k ≤ i → i < j → s.lists i = []) →
        ∃ p q t, allocPagesAux n s k = some (some p, t) ∧ 2 ^ k ∣ p ∧ q ∈ s.lists j ∧
          Dyadic.block p k ⊆ Dyadic.block q j ∧ t.freePages = s.freePages \ Dyadic.block p k ∧
          t.WellListed := by
  refine ⟨fun hempty => allocPagesAux_none hl hk hempty hn, fun j hkj hj hne hempty => ?_⟩
  obtain ⟨p, rest, hp⟩ := List.exists_cons_of_ne_nil hne
  have hmem : p ∈ s.lists j := hp ▸ List.mem_cons_self
  obtain ⟨t, hrun, -, htaken⟩ :=
    allocPagesAux_spec (n := n) hl hm (hc j) hj hp hkj hempty (by omega)
  refine ⟨p, p, t, hrun, (pow_dvd_pow 2 hkj).trans (hl.merged.aligned (p, j) hmem), hmem, ?_, ?_,
    htaken.listed⟩
  · exact Set.Ico_subset_Ico_right (Nat.add_le_add_left (Nat.pow_le_pow_right (by decide) hkj) p)
  · rw [htaken.pages, Set.union_sdiff_left, htaken.apart.symm.sdiff_eq_left]

/-- Four free pages, in one block. -/
def fourFree : BuddySeqs := ofBlocks [⟨0, 4⟩] [(0, 2)]

theorem fourFree_consistent : fourFree.Consistent :=
  BlocksOk.consistent ⟨by decide, by decide, by decide, by decide, by decide⟩

theorem count_fourFree (j : ℕ) : fourFree.count j < 2 ^ 32 :=
  Nat.lt_of_le_of_lt (List.length_filter_le _ _) (by decide)

/-- One page of four is allocated. -/
theorem alloc_pages_splits_four : ∃ p q t, allocPagesAux 16 fourFree 0 = some (some p, t) ∧
    2 ^ 0 ∣ p ∧ q ∈ fourFree.lists 2 ∧ Dyadic.block p 0 ⊆ Dyadic.block q 2 ∧
    t.freePages = fourFree.freePages \ Dyadic.block p 0 ∧ t.WellListed :=
  (alloc_pages_splits fourFree 0 fourFree_consistent.wellListed fourFree_consistent.wellMarked
    count_fourFree (by decide) 16 (by decide)).2 2 (by decide) (by decide) (by decide)
    fun i _ hi => by rcases show i = 0 ∨ i = 1 by omega with rfl | rfl <;> rfl

/-- The lists afterwards. -/
example : (allocPagesAux 16 fourFree 0).map
    (fun r => (r.1, r.2.lists 0, r.2.lists 1, r.2.lists 2)) =
    some (some 0, [1], [2], []) := by decide

/-! ### Freeing at once -/

/-- **Merging** takes a half off its list again. -/
theorem Split.removeFromFreelist (h : Split s p k j rest t) (hkj : k < j)
    (hempty : s.lists k = []) (hcount : s.count k = 0) (hnew : ¬s.IsFree (p + 2 ^ k)) :
    Split s p (k + 1) j rest (t.removeFromFreelist (p + 2 ^ k)) where
  lists i := by
    have hk := h.lists k
    rw [if_neg (by omega), if_pos ⟨le_rfl, hkj⟩] at hk
    simp only [BuddySeqs.removeFromFreelist, h.upper k le_rfl hkj, Function.update_apply, hk,
      List.erase_cons_head]
    split
    · next heq =>
      subst heq
      rw [if_neg (by omega), if_neg (by omega), hempty]
    · rw [h.lists i]
      exact if_congr Iff.rfl rfl (if_congr (by omega) rfl rfl)
  count i := by
    have hk := h.count k
    rw [if_neg (by omega), if_pos ⟨le_rfl, hkj⟩] at hk
    simp only [BuddySeqs.removeFromFreelist, h.upper k le_rfl hkj, Function.update_apply, hk]
    split
    · next heq =>
      subst heq
      rw [if_neg (by omega), if_neg (by omega), hcount]
      rfl
    · rw [h.count i]
      exact if_congr Iff.rfl rfl (if_congr (by omega) rfl rfl)
  free q hq := by
    rw [isFree_removeFromFreelist, h.free q hq]
    constructor
    · rintro ⟨hne, hq | ⟨i, hi, hij, rfl⟩⟩
      · exact Or.inl hq
      · refine Or.inr ⟨i, Nat.lt_of_le_of_ne hi ?_, hij, rfl⟩
        rintro rfl
        exact hne rfl
    · rintro (hq' | ⟨i, hi, hij, rfl⟩)
      · refine ⟨?_, Or.inl hq'⟩
        rintro rfl
        exact hnew hq'
      · refine ⟨fun heq => ?_, Or.inr ⟨i, by omega, hij, rfl⟩⟩
        have := Nat.pow_right_injective le_rfl (Nat.add_left_cancel heq)
        omega
  upper i hi hij := h.upper i (by omega) hij
  order := h.order
  zones := h.zones

/-- Listing the block again, when all halves are merged. -/
theorem Split.restored (h : Split s p j j rest t) (hl : s.WellListed) (hm : s.WellMarked)
    (hj : j ≤ maxOrder) (hc : s.count j < 2 ^ 32) (hp : s.lists j = p :: rest) :
    Restored s (t.directFree p j) where
  lists := by
    funext i
    simp only [BuddySeqs.directFree, Function.update_apply, h.lists, if_pos]
    split
    · next heq => rw [heq, hp]
    · rw [if_neg (by omega)]
  count := by
    have hpos : 0 < s.count j := by
      rw [hl.count j hj, hp]
      exact Nat.succ_pos _
    funext i
    simp only [BuddySeqs.directFree, Function.update_apply, h.count, if_pos]
    split
    · next heq => rw [heq, asUint_of_lt (by omega), Nat.sub_add_cancel hpos]
    · rw [if_neg (by omega)]
  free q := by
    rw [isFree_directFree]
    rcases eq_or_ne q p with rfl | hq
    · exact iff_of_true (Or.inl rfl) ((hm.free q).mpr ⟨j, hp ▸ List.mem_cons_self⟩)
    · rw [or_iff_right hq, h.free q hq, or_iff_left]
      rintro ⟨i, hi, hij, -⟩
      omega

/-- A free writes no list of a lower order. -/
theorem lists_freePagesAux (hrun : BuddySeqs.freePagesAux n s p k = some t) (hi : i < k) :
    t.lists i = s.lists i := by
  induction n generalizing s p k with
  | zero => cases hrun
  | succ n ih =>
    by_cases hmerge : s.MergeTest (asUint (getBuddy p k)) k
    · rw [freePagesAux_of_merge hmerge] at hrun
      rw [ih hrun (by omega), BuddySeqs.removeFromFreelist, hmerge.2.2.1]
      exact Function.update_of_ne hi.ne _ _
    · rw [freePagesAux_of_not_merge hmerge] at hrun
      obtain rfl := Option.some.inj hrun
      exact Function.update_of_ne hi.ne _ _

/-- A free returns, in any state. -/
theorem exists_freePagesAux (s : BuddySeqs) (p : ℕ) (hk : k ≤ maxOrder) (hn : maxOrder < k + n) :
    ∃ t, BuddySeqs.freePagesAux n s p k = some t := by
  induction n generalizing s p k with
  | zero => omega
  | succ n ih =>
    by_cases hmerge : s.MergeTest (asUint (getBuddy p k)) k
    · rw [freePagesAux_of_merge hmerge]
      have := hmerge.2.2.2
      exact ih _ _ (by omega) (by omega)
    · rw [freePagesAux_of_not_merge hmerge]
      exact ⟨_, rfl⟩

/-- When nothing is left to merge, only a listed page of the same order passes the test. -/
theorem Split.mem_of_mergeTest (h : Split s p j j rest t) (hm : s.WellMarked) (hne : q ≠ p)
    (hq : t.MergeTest q j) : q ∈ s.lists j := by
  obtain ⟨-, hfree, horder, -⟩ := hq
  have hfree' : s.IsFree q :=
    ((h.free q hne).mp hfree).resolve_right fun ⟨i, hi, hij, _⟩ => by omega
  have hmem := hm.mem_lists_of_free hfree'
  rwa [← h.order q hfree', horder] at hmem

/-- **The merges of the free** retrace the splits, if the frame numbers fit. The induction follows
them up to the order `j` that the block came from. -/
theorem Split.freePagesAux (h : Split s p k j rest t) (hs : s.Consistent) (hj : j ≤ maxOrder)
    (hc : s.count j < 2 ^ 32) (hp : s.lists j = p :: rest) (hkj : k ≤ j)
    (hempty : ∀ i, k ≤ i → i < j → s.lists i = []) (hlow : p < 2 ^ 32) (hn : maxOrder < k + n) :
    ∃ u, BuddySeqs.freePagesAux n t p k = some u ∧ Restored s u := by
  have hmem : p ∈ s.lists j := hp ▸ List.mem_cons_self
  have hdvd : 2 ^ j ∣ p := hs.merged.aligned (p, j) hmem
  induction n generalizing k t with
  | zero => omega
  | succ n ih =>
    have hbuddy : asUint (getBuddy p k) = Dyadic.buddy p k :=
      BuddyState.asUint_getBuddy hlow (hkj.trans hj)
    rcases Nat.eq_or_lt_of_le hkj with rfl | hlt
    · have hno : ¬t.MergeTest (asUint (getBuddy p k)) k := by
        rw [hbuddy]
        intro hmerge
        have hne : Dyadic.buddy p k ≠ p := Dyadic.buddy_ne hdvd
        exact hs.merged.unmerged (p, k) hmem (Nat.lt_of_le_of_ne hj hmerge.2.2.2)
          (h.mem_of_mergeTest hs.wellMarked hne hmerge)
      exact ⟨_, freePagesAux_of_not_merge hno, h.restored hs.wellListed hs.wellMarked hj hc hp⟩
    · have hnil := hempty k le_rfl hlt
      have hcount : s.count k = 0 := by
        rw [hs.count k (by omega), hnil]
        rfl
      have hupper : Dyadic.buddy p k = p + 2 ^ k :=
        Dyadic.buddy_of_dvd ((pow_dvd_pow 2 hlt).trans hdvd)
      have hmerge : t.MergeTest (asUint (getBuddy p k)) k := by
        rw [hbuddy, hupper]
        refine ⟨?_, (h.free _ (ne_upper p k)).mpr (Or.inr ⟨k, le_rfl, hlt, rfl⟩),
          h.upper k le_rfl hlt, by omega⟩
        rw [validBuddyPfn, h.zones]
        exact hs.valid_of_mem hmem (upper_mem_block p hlt)
      have hnew := not_isFree_of_mem_block hs.wellListed hs.wellMarked hmem (upper_mem_block p hlt)
        (ne_upper p k)
      rw [freePagesAux_of_merge hmerge, hbuddy, hupper, min_eq_left (Nat.le_add_right _ _)]
      exact ih (h.removeFromFreelist hlt hnil hcount hnew) hlt (fun i hi => hempty i (by omega))
        (by omega)

/-- **Frames from `2 ^ 32` on.** The test looks at another page than the buddy, which is not free
unless it is listed with the order of the block. -/
theorem Split.not_mergeTest_of_high (h : Split s p k j rest t) (hm : s.WellMarked)
    (hhigh : 2 ^ 32 ≤ p) (hq : asUint q ∉ s.lists k) : ¬t.MergeTest (asUint q) k := by
  have hlt : asUint q < 2 ^ 32 := Nat.mod_lt _ (by decide)
  rintro ⟨-, hfree, horder, -⟩
  rcases (h.free _ (by omega)).mp hfree with hfree | ⟨i, -, -, heq⟩
  · have hmem := hm.mem_lists_of_free hfree
    rw [← h.order _ hfree, horder] at hmem
    exact hq hmem
  · have := Nat.two_pow_pos i
    omega

/-- A block that was not split is merged with a listed block that is not its buddy. That one does
not come back to its list. -/
theorem Split.not_restored_of_high {u : BuddySeqs} (h : Split s p k k rest t) (hs : s.Consistent)
    (hp : s.lists k = p :: rest) (hhigh : 2 ^ 32 ≤ p)
    (hmem : asUint (getBuddy p k) ∈ s.lists k) (hmax : k ≠ maxOrder)
    (hfree : BuddySeqs.freePagesAux (n + 1) t p k = some u) : ¬Restored s u := by
  have hlt : asUint (getBuddy p k) < 2 ^ 32 := Nat.mod_lt _ (by decide)
  have hfree' : s.IsFree (asUint (getBuddy p k)) := (hs.free _).mpr ⟨k, hmem⟩
  have hmerge : t.MergeTest (asUint (getBuddy p k)) k := by
    refine ⟨?_, (h.free _ (by omega)).mpr (Or.inl hfree'), ?_, hmax⟩
    · rw [validBuddyPfn, h.zones]
      exact hs.valid_of_mem hmem (Dyadic.self_mem_block _ k)
    · rw [h.order _ hfree', hs.order hmem]
  rw [freePagesAux_of_merge hmerge] at hfree
  have hlists : u.lists k = rest.erase (asUint (getBuddy p k)) := by
    rw [lists_freePagesAux hfree (Nat.lt_succ_self k), BuddySeqs.removeFromFreelist,
      hmerge.2.2.1]
    simp [h.lists]
  intro hrest
  have hlen := congrArg List.length (hlists.symm.trans (congrFun hrest.lists k))
  rw [hp, List.length_cons] at hlen
  have := List.length_erase_le (a := asUint (getBuddy p k)) (l := rest)
  omega

/-- **Allocate, then free.** The page is at the front of the first list with room for it, of order
`j`. Freeing the block at once restores the lists just when the frame number of the page fits 32
bits, or the block was not split and the low 32 bits of its buddy's number do not name the first
page of a listed block of its order. -/
theorem alloc_free_restores (s : BuddySeqs) (hs : s.Consistent) (hc : ∀ j, s.count j < 2 ^ 32)
    {k j p : ℕ} {rest : List ℕ} (hkj : k ≤ j) (hj : j ≤ maxOrder)
    (hempty : ∀ i, k ≤ i → i < j → s.lists i = []) (hp : s.lists j = p :: rest) :
    ∃ t u, allocPagesAux (maxOrder + 1) s k = some (some p, t) ∧ t.freePagesNolock p k = some u ∧
      (Restored s u ↔
        p < 2 ^ 32 ∨ j = k ∧ (k = maxOrder ∨ asUint (getBuddy p k) ∉ s.lists k)) := by
  have hm := hs.wellMarked
  have hk : k ≤ maxOrder := hkj.trans hj
  obtain ⟨t, halloc, hsplit, -⟩ :=
    allocPagesAux_spec (n := maxOrder + 1) hs.wellListed hm (hc j) hj hp hkj hempty (by omega)
  rcases Nat.lt_or_ge p (2 ^ 32) with hlow | hhigh
  · obtain ⟨u, hfree, hrest⟩ := hsplit.freePagesAux (n := maxOrder + 1) hs hj (hc j) hp hkj hempty
      hlow (by omega)
    exact ⟨t, u, halloc, hfree, iff_of_true hrest (Or.inl hlow)⟩
  · obtain ⟨u, hfree⟩ := exists_freePagesAux (n := maxOrder + 1) t p hk (by omega)
    refine ⟨t, u, halloc, hfree, ?_⟩
    rw [or_iff_right (Nat.not_lt.mpr hhigh)]
    by_cases hlisted : asUint (getBuddy p k) ∈ s.lists k ∧ k ≠ maxOrder
    · obtain ⟨hmem, hmax⟩ := hlisted
      obtain rfl : j = k := by
        by_contra hne
        rw [hempty k le_rfl (by omega)] at hmem
        exact List.not_mem_nil hmem
      refine iff_of_false (fun hrest => ?_) fun ⟨_, h⟩ => h.elim hmax fun hnot => hnot hmem
      exact hsplit.not_restored_of_high hs hp hhigh hmem hmax hfree hrest
    · have hno : ¬t.MergeTest (asUint (getBuddy p k)) k := fun hmerge =>
        hsplit.not_mergeTest_of_high hm hhigh (fun hmem => hlisted ⟨hmem, hmerge.2.2.2⟩) hmerge
      rw [freePagesAux_of_not_merge hno] at hfree
      obtain rfl := Option.some.inj hfree
      rcases Nat.eq_or_lt_of_le hkj with rfl | hlt
      · refine iff_of_true (hsplit.restored hs.wellListed hm hj (hc k) hp) ⟨rfl, ?_⟩
        by_contra h
        rw [not_or, not_not] at h
        exact hlisted ⟨h.2, h.1⟩
      · refine iff_of_false (fun hrest => ?_) fun h => hlt.ne' h.1
        have hlists := congrFun hrest.lists k
        rw [hempty k le_rfl hlt] at hlists
        simp [BuddySeqs.directFree] at hlists

/-- One page of four is allocated and given back. -/
theorem alloc_free_restores_four :
    ∃ t u, allocPagesAux (maxOrder + 1) fourFree 0 = some (some 0, t) ∧
      t.freePagesNolock 0 0 = some u ∧ Restored fourFree u := by
  obtain ⟨t, u, halloc, hfree, hiff⟩ := alloc_free_restores fourFree fourFree_consistent
    count_fourFree (k := 0) (j := 2) (p := 0) (by decide) (by decide)
    (fun i _ hi => by rcases show i = 0 ∨ i = 1 by omega with rfl | rfl <;> rfl) rfl
  exact ⟨t, u, halloc, hfree, hiff.mpr (Or.inl (by decide))⟩

/-- Frame `2 ^ 32` is free, and so is frame 1. -/
def farFree : BuddySeqs := ofBlocks [⟨0, 2⟩, ⟨2 ^ 32, 1⟩] [(2 ^ 32, 0), (1, 0)]

/-- **Frame `2 ^ 32`** is allocated and given back. The low 32 bits of its buddy's number name
frame 1, which is taken for the buddy. -/
theorem not_alloc_free_restores :
    ¬∀ s : BuddySeqs, s.Consistent → (∀ j, s.count j < 2 ^ 32) → ∀ k p t u, k ≤ maxOrder →
      allocPagesAux (maxOrder + 1) s k = some (some p, t) → t.freePagesNolock p k = some u →
        Restored s u := by
  intro hall
  have hs : farFree.Consistent :=
    BlocksOk.consistent ⟨by decide, by decide, by decide, by decide, by decide⟩
  have hc : ∀ j, farFree.count j < 2 ^ 32 := fun j =>
    Nat.lt_of_le_of_lt (List.length_filter_le _ _) (by decide)
  have hrest := hall farFree hs hc 0 (2 ^ 32) _ _ (by decide) rfl rfl
  have hlists := congrFun hrest.lists 0
  revert hlists
  decide

/-! ### The link fields -/

/-- The first branch of `alloc_pages_nolock`. -/
theorem allocPagesAux_of_head {b : BuddyState} (hk : k ≤ maxOrder)
    (hcount : 0 < (b.buddyLists k).count) (hhead : (b.buddyLists k).head = some p) :
    BuddyState.allocPagesAux (n + 1) b k = some (some p, { b with
      buddyLists := Function.update b.buddyLists k
        ⟨b.links.next p, asUint ((b.buddyLists k).count + (2 ^ 32 - 1))⟩ }) := by
  rw [BuddyState.allocPagesAux, if_neg (Nat.not_lt.mpr hk), if_pos hcount, hhead]
  rfl

namespace Abstracts

variable {b : BuddyState}

theorem clearFree (h : Abstracts s b) (p : ℕ) : Abstracts (s.clearFree p) (b.clearFree p) where
  rep := h.rep
  count := h.count
  flags := by simp only [BuddyState.clearFree, BuddySeqs.clearFree, h.flags]
  order := h.order
  zones := h.zones

/-- **The link fields.** A call of `alloc_pages_nolock` that finds a block does what it does to the
sequences. Nothing is unlinked on the way, so stale `prev` fields do not matter here. -/
theorem allocPagesAux (h : Abstracts s b) (hl : s.WellListed) (hm : s.WellMarked)
    (hc : s.count j < 2 ^ 32) (hj : j ≤ maxOrder) (hp : s.lists j = p :: rest) (hkj : k ≤ j)
    (hempty : ∀ i, k ≤ i → i < j → s.lists i = []) (hn : j < k + n) :
    ∃ t b', BuddySeqs.allocPagesAux n s k = some (some p, t) ∧
      BuddyState.allocPagesAux n b k = some (some p, b') ∧ Abstracts t b' := by
  have hmem : p ∈ s.lists j := hp ▸ List.mem_cons_self
  induction n generalizing k with
  | zero => omega
  | succ n ih =>
    rcases Nat.eq_or_lt_of_le hkj with rfl | hlt
    · have hpos : 0 < s.count k := by
        rw [hl.count k hj, hp]
        exact Nat.succ_pos _
      have hhead : (b.buddyLists k).head = some p := by
        have hwalk := h.rep.walk k
        rw [hp, walk_cons] at hwalk
        exact hwalk.1
      obtain ⟨xs, hxs, hrep⟩ := h.rep.pop hhead
      obtain rfl : rest = xs := (List.cons.inj (hp.symm.trans hxs)).2
      rw [← h.count] at hpos
      refine ⟨_, _, allocPagesAux_of_cons hj (h.count k ▸ hpos) hp,
        allocPagesAux_of_head hj hpos hhead, ?_, fun i => ?_, h.flags, h.order, h.zones⟩
      · convert hrep using 1
        · funext i
          simp only [BuddyState.heads, Function.update_apply]
          split <;> rfl
        · rfl
      · simp only [popFront, Function.update_apply, h.count]
        split
        · rfl
        · exact h.count i
    · have hnil := hempty k le_rfl hlt
      have hcount : s.count k = 0 := by
        rw [hl.count k (by omega), hnil]
        rfl
      have hempty' : ∀ i, k + 1 ≤ i → i < j → s.lists i = [] := fun i hi => hempty i (by omega)
      obtain ⟨t, b', hrun, hrun', habs⟩ := ih hlt hempty' (by omega)
      obtain ⟨t', hspec, hsplit, htaken⟩ :=
        allocPagesAux_spec (n := n) hl hm hc hj hp hlt hempty' (by omega)
      obtain rfl : t = t' := by
        rw [hrun] at hspec
        simpa using hspec
      have hbuddy : getBuddy p k = p + 2 ^ k := by
        rw [BuddyState.getBuddy_eq,
          Dyadic.buddy_of_dvd ((pow_dvd_pow 2 hlt).trans (hl.merged.aligned (p, j) hmem))]
      have hno := hsplit.not_mergeTest (q := asUint (getBuddy (p + 2 ^ k) k)) hm hp hnil
      have hnew : ∀ i, p + 2 ^ k ∉ t.lists i := fun i hi =>
        Set.disjoint_left.mp htaken.apart (upper_mem_block p (Nat.lt_succ_self k))
          (Dyadic.mem_cover.mpr ⟨(p + 2 ^ k, i), hi, Dyadic.self_mem_block _ i⟩)
      have hfree : t.freePagesNolock (p + 2 ^ k) k = some (t.directFree (p + 2 ^ k) k) :=
        freePagesAux_of_not_merge hno
      have hfree' : b'.freePagesNolock (p + 2 ^ k) k = b'.directFree (p + 2 ^ k) k :=
        BuddyState.freePagesAux_of_not_merge (habs.mergeTest_iff.not.mpr hno)
      refine ⟨_, _, ?_, ?_, (habs.directFree hnew k).clearFree p⟩
      · rw [allocPagesAux_of_nil (by omega) hcount, hrun]
        simp only [Option.bind_some, hbuddy, hfree, Option.map_some]
      · rw [BuddyState.allocPagesAux, if_neg (by omega), if_neg (by rw [h.count]; omega),
          if_neg (by omega), hrun']
        simp only [hbuddy, hfree']

end Abstracts

end BuddySeqs

end GoofyOs
