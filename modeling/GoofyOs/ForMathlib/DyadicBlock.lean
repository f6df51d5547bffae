import Mathlib.Data.Nat.Bitwise
import Mathlib.Order.CompletePartialOrder
import Mathlib.Order.Interval.Set.Disjoint
import Mathlib.Order.Interval.Set.Basic
import Mathlib.Tactic.Ring

/-!
# Dyadic blocks

The arithmetic of a binary buddy system, with no allocator in it. A block of order `k` is the set
`[p, p + 2 ^ k)` for a start `p` divisible by `2 ^ k`; its buddy is the block of the same order
that starts at `p` with bit `k` flipped, and the two together are one block of order `k + 1`.

## Main results

* `Dyadic.buddy_cases` — an aligned start is the lower or the upper half of the next order
* `Dyadic.block_merge` — a block and its buddy make up the block that starts at the smaller one
* `Dyadic.disjoint_halves` — the two halves of a block do not overlap
-/

namespace GoofyOs

namespace Dyadic

variable {p q k : ℕ}

/-- The block of order `k` that starts at `p`. -/
def block (p k : ℕ) : Set ℕ := Set.Ico p (p + 2 ^ k)

/-- The start of the buddy block: bit `k` flipped. -/
def buddy (p k : ℕ) : ℕ := p ^^^ 2 ^ k

theorem mem_block : q ∈ block p k ↔ p ≤ q ∧ q < p + 2 ^ k := Iff.rfl

theorem self_mem_block (p k : ℕ) : p ∈ block p k :=
  ⟨le_rfl, Nat.lt_add_of_pos_right (Nat.two_pow_pos k)⟩

theorem buddy_mul (m k : ℕ) : buddy (m * 2 ^ k) k = (m ^^^ 1) * 2 ^ k := by
  have h := @Nat.shiftLeft_xor_distrib k m 1
  simp only [Nat.shiftLeft_eq, one_mul] at h
  exact h.symm

@[simp] theorem buddy_buddy (p k : ℕ) : buddy (buddy p k) k = p := by
  simp [buddy]

/-- The lower half of a block of order `k + 1` has the upper half as its buddy. -/
theorem buddy_of_dvd (h : 2 ^ (k + 1) ∣ p) : buddy p k = p + 2 ^ k := by
  obtain ⟨m, rfl⟩ := h
  rw [show 2 ^ (k + 1) * m = (2 * m) * 2 ^ k by ring, buddy_mul,
    Nat.xor_one_of_even ⟨m, by ring⟩]
  ring

/-- The upper half of a block of order `k + 1` has the lower half as its buddy. -/
theorem buddy_of_dvd_add (h : 2 ^ (k + 1) ∣ p) : buddy (p + 2 ^ k) k = p := by
  rw [← buddy_of_dvd h, buddy_buddy]

/-- A block is the lower or the upper half of a block of the next order. -/
theorem buddy_cases (h : 2 ^ k ∣ p) :
    (2 ^ (k + 1) ∣ p ∧ buddy p k = p + 2 ^ k) ∨
      ∃ q, 2 ^ (k + 1) ∣ q ∧ p = q + 2 ^ k ∧ buddy p k = q := by
  obtain ⟨m, rfl⟩ := h
  rcases Nat.even_or_odd' m with ⟨n, rfl | rfl⟩
  · have hd : 2 ^ (k + 1) ∣ 2 ^ k * (2 * n) := ⟨n, by ring⟩
    exact Or.inl ⟨hd, buddy_of_dvd hd⟩
  · have hd : 2 ^ (k + 1) ∣ 2 ^ k * (2 * n) := ⟨n, by ring⟩
    have hp : 2 ^ k * (2 * n + 1) = 2 ^ k * (2 * n) + 2 ^ k := by ring
    exact Or.inr ⟨_, hd, hp, by rw [hp, buddy_of_dvd_add hd]⟩

theorem buddy_ne (h : 2 ^ k ∣ p) : buddy p k ≠ p := by
  have := Nat.two_pow_pos k
  rcases buddy_cases h with ⟨-, hb⟩ | ⟨q, -, rfl, hb⟩ <;> omega

theorem dvd_min_buddy (h : 2 ^ k ∣ p) : 2 ^ (k + 1) ∣ min p (buddy p k) := by
  rcases buddy_cases h with ⟨hd, hb⟩ | ⟨q, hd, rfl, hb⟩
  · rwa [hb, min_eq_left (Nat.le_add_right _ _)]
  · rwa [hb, min_eq_right (Nat.le_add_right _ _)]

theorem block_succ (p k : ℕ) : block p (k + 1) = block p k ∪ block (p + 2 ^ k) k := by
  rw [block, block, block, Set.Ico_union_Ico_eq_Ico (Nat.le_add_right _ _) (Nat.le_add_right _ _)]
  congr 1
  ring

/-- **Merging.** A block and its buddy make up one block of the next order. -/
theorem block_merge (h : 2 ^ k ∣ p) :
    block (min p (buddy p k)) (k + 1) = block p k ∪ block (buddy p k) k := by
  rcases buddy_cases h with ⟨hd, hb⟩ | ⟨q, hd, rfl, hb⟩
  · rw [hb, min_eq_left (Nat.le_add_right _ _), block_succ]
  · rw [hb, min_eq_right (Nat.le_add_right _ _), block_succ, Set.union_comm]

theorem disjoint_halves (p k : ℕ) : Disjoint (block p k) (block (p + 2 ^ k) k) :=
  Set.Ico_disjoint_Ico_same

/-- Two blocks that share their start overlap. -/
theorem not_disjoint_of_start (p j k : ℕ) : ¬ Disjoint (block p j) (block p k) := fun h =>
  Set.disjoint_left.mp h (self_mem_block p j) (self_mem_block p k)

end Dyadic

end GoofyOs
