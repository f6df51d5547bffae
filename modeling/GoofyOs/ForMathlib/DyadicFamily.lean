import GoofyOs.ForMathlib.DyadicBlock
import Mathlib.Data.Finset.Card
import Mathlib.Data.Finset.Range
import Mathlib.Data.Set.Lattice
import Mathlib.Order.SetNotation

/-!
# Families of dyadic blocks

Disjoint dyadic blocks of orders up to `m`, merged as far as possible: no two of them of an order
below `m` are buddies. Adding a block either leaves the family merged, or the block has its buddy in
the family, and then the two make up a block of the next order that is disjoint from the rest.

## Main definitions

* `Dyadic.cover` — the union of the blocks
* `Dyadic.Merged` — a family that is merged

## Main results

* `Dyadic.Merged.insert` — adding a block whose buddy is not there
* `Dyadic.Merged.disjoint_merge`, `Dyadic.cover_merge` — taking the buddy of a block out
* `Dyadic.Merged.length_lt` — a bound on the number of blocks of one order
-/

namespace GoofyOs

namespace Dyadic

variable {m p q k n : ℕ} {F : Set (ℕ × ℕ)} {b : ℕ × ℕ} {s : Set ℕ}

/-- The numbers in the blocks of a family. -/
def cover (F : Set (ℕ × ℕ)) : Set ℕ := ⋃ b ∈ F, block b.1 b.2

theorem mem_cover : q ∈ cover F ↔ ∃ b ∈ F, q ∈ block b.1 b.2 := by
  simp [cover]

theorem disjoint_cover_right : Disjoint s (cover F) ↔ ∀ b ∈ F, Disjoint s (block b.1 b.2) := by
  simp [cover]

theorem cover_insert (b : ℕ × ℕ) (F : Set (ℕ × ℕ)) :
    cover (insert b F) = block b.1 b.2 ∪ cover F :=
  Set.biUnion_insert b F _

theorem cover_diff (hb : b ∈ F) : cover F = block b.1 b.2 ∪ cover (F \ {b}) := by
  rw [← cover_insert, Set.insert_sdiff_singleton, Set.insert_eq_of_mem hb]

/-- Merging with a buddy from the family covers what the block and the family do. -/
theorem cover_merge (hp : 2 ^ k ∣ p) (hb : (buddy p k, k) ∈ F) :
    block (min p (buddy p k)) (k + 1) ∪ cover (F \ {(buddy p k, k)}) = block p k ∪ cover F := by
  rw [block_merge hp, cover_diff hb, Set.union_assoc]

/-- A family of disjoint aligned blocks of order at most `m`, without two buddies of order below
`m`. -/
structure Merged (m : ℕ) (F : Set (ℕ × ℕ)) : Prop where
  order_le : ∀ b ∈ F, b.2 ≤ m
  aligned : ∀ b ∈ F, 2 ^ b.2 ∣ b.1
  disjoint : F.PairwiseDisjoint fun b => block b.1 b.2
  unmerged : ∀ b ∈ F, b.2 < m → (buddy b.1 b.2, b.2) ∉ F

namespace Merged

theorem subset {F' : Set (ℕ × ℕ)} (h : Merged m F) (hF : F' ⊆ F) : Merged m F' where
  order_le b hb := h.order_le b (hF hb)
  aligned b hb := h.aligned b (hF hb)
  disjoint := h.disjoint.subset hF
  unmerged b hb hlt hmem := h.unmerged b (hF hb) hlt (hF hmem)

/-- **Adding a block** whose buddy is not in the family. -/
theorem insert (h : Merged m F) (hk : k ≤ m) (hp : 2 ^ k ∣ p)
    (hdisj : Disjoint (block p k) (cover F)) (hbuddy : k < m → (buddy p k, k) ∉ F) :
    Merged m (insert (p, k) F) where
  order_le b hb := by
    rcases hb with rfl | hb
    · exact hk
    · exact h.order_le b hb
  aligned b hb := by
    rcases hb with rfl | hb
    · exact hp
    · exact h.aligned b hb
  disjoint := h.disjoint.insert fun b hb _ => disjoint_cover_right.mp hdisj b hb
  unmerged b hb hlt hmem := by
    rcases hb with rfl | hb
    · rcases hmem with heq | hmem
      · exact buddy_ne hp (congrArg Prod.fst heq)
      · exact hbuddy hlt hmem
    · rcases hmem with heq | hmem
      · obtain ⟨hfst, hsnd⟩ := Prod.mk.inj heq
        refine hbuddy (hsnd ▸ hlt) ?_
        rw [← hfst, ← hsnd, buddy_buddy]
        exact hb
      · exact h.unmerged b hb hlt hmem

/-- A block is disjoint from the rest of its family. -/
theorem disjoint_diff (h : Merged m F) (hb : b ∈ F) :
    Disjoint (block b.1 b.2) (cover (F \ {b})) :=
  disjoint_cover_right.mpr fun _ hb' => h.disjoint hb hb'.1 fun heq => hb'.2 heq.symm

/-- **Merging** with a buddy from the family: the block of the next order is disjoint from the
rest. -/
theorem disjoint_merge (h : Merged m F) (hp : 2 ^ k ∣ p) (hdisj : Disjoint (block p k) (cover F))
    (hb : (buddy p k, k) ∈ F) :
    Disjoint (block (min p (buddy p k)) (k + 1)) (cover (F \ {(buddy p k, k)})) := by
  rw [block_merge hp]
  refine Disjoint.union_left (hdisj.mono_right ?_) (h.disjoint_diff hb)
  rw [cover_diff hb]
  exact Set.subset_union_right

/-- **A bound** on the blocks of one order below `n`: not every number can be one. -/
theorem length_lt (h : Merged m F) (hm : 0 < m) (hn : 2 ≤ n) {xs : List ℕ} (hnd : xs.Nodup)
    (hxs : ∀ p ∈ xs, (p, k) ∈ F ∧ p < n) : xs.length < n := by
  have hsub : xs.toFinset ⊆ Finset.range n := fun p hp =>
    Finset.mem_range.mpr (hxs p (List.mem_toFinset.mp hp)).2
  have hle : xs.length ≤ n := by
    simpa [List.toFinset_card_of_nodup hnd] using Finset.card_le_card hsub
  refine lt_of_le_of_ne hle fun hlen => ?_
  -- otherwise `0` and `1` both start a block of order `k`
  have heq : xs.toFinset = Finset.range n := Finset.eq_of_subset_of_card_le hsub (by
    rw [List.toFinset_card_of_nodup hnd, hlen, Finset.card_range])
  have hall : ∀ p < n, (p, k) ∈ F := fun p hp =>
    (hxs p (List.mem_toFinset.mp (heq ▸ Finset.mem_range.mpr hp))).1
  obtain rfl : k = 0 := by
    have hdvd := h.aligned _ (hall 1 (by omega))
    exact (Nat.pow_eq_one.mp (Nat.dvd_one.mp hdvd)).resolve_left (by norm_num)
  exact h.unmerged _ (hall 0 (by omega)) hm (hall 1 (by omega))

end Merged

end Dyadic

end GoofyOs
