import Mathlib.Data.List.Nodup
import Mathlib.Data.List.Range
import Mathlib.Order.CompletePartialOrder
import Mathlib.Order.Interval.Set.Disjoint

/-!
# Slots of one size

A range of numbers is cut into slots of one size, one behind the other. What is left at the end is
no slot.

## Main definitions

* `slots base size n` — the starts of `n` slots
* `slotRange size x` — the numbers of the slot that starts at `x`

## Main results

* `slotRange_subset` — the slots are in the range
* `disjoint_slotRange` — they do not overlap
-/

namespace GoofyOs

/-- The starts of `n` slots. -/
def slots (base size n : ℕ) : List ℕ := (List.range n).map fun i => base + size * i

/-- The numbers of a slot. -/
def slotRange (size x : ℕ) : Set ℕ := Set.Ico x (x + size)

variable {base size n total x y z : ℕ}

theorem mem_slotRange : z ∈ slotRange size x ↔ x ≤ z ∧ z < x + size := Iff.rfl

theorem slots_succ (base size n : ℕ) :
    slots base size (n + 1) = slots base size n ++ [base + size * n] := by
  rw [slots, List.range_succ, List.map_append, List.map_singleton]
  rfl

theorem length_slots (base size n : ℕ) : (slots base size n).length = n := by
  rw [slots, List.length_map, List.length_range]

theorem nodup_slots (hsize : 0 < size) (base n : ℕ) : (slots base size n).Nodup :=
  List.Nodup.map
    (fun _ _ hij => Nat.eq_of_mul_eq_mul_left hsize (Nat.add_left_cancel hij)) List.nodup_range

/-- A slot that is not among the first ones starts behind them. -/
theorem add_le_of_mem_slots (hx : x ∈ slots base size n) : x + size ≤ base + size * n := by
  obtain ⟨i, hi, rfl⟩ := List.mem_map.mp hx
  have hle : size * (i + 1) ≤ size * n := Nat.mul_le_mul_left _ (List.mem_range.mp hi)
  rw [Nat.mul_succ] at hle
  omega

theorem le_of_mem_slots (hx : x ∈ slots base size n) : base ≤ x := by
  obtain ⟨i, -, rfl⟩ := List.mem_map.mp hx
  exact Nat.le_add_right _ _

/-- **The slots are in the range** that was cut. -/
theorem slotRange_subset (hx : x ∈ slots base size (total / size)) :
    slotRange size x ⊆ Set.Ico base (base + total) := by
  have hle := add_le_of_mem_slots hx
  have hmul := Nat.mul_div_le total size
  exact Set.Ico_subset_Ico (le_of_mem_slots hx) (by omega)

/-- **Different slots do not overlap.** -/
theorem disjoint_slotRange (hx : x ∈ slots base size n) (hy : y ∈ slots base size n) (hne : x ≠ y) :
    Disjoint (slotRange size x) (slotRange size y) := by
  induction n with
  | zero => cases hx
  | succ n ih =>
    have hbehind : ∀ {u : ℕ}, u ∈ slots base size n →
        Disjoint (slotRange size u) (slotRange size (base + size * n)) := fun hu =>
      Set.disjoint_left.mpr fun z hz hz' => by
        have hle := add_le_of_mem_slots hu
        rw [mem_slotRange] at hz hz'
        omega
    rw [slots_succ, List.mem_append, List.mem_singleton] at hx hy
    rcases hx with hx | rfl
    · rcases hy with hy | rfl
      · exact ih hx hy
      · exact hbehind hx
    · rcases hy with hy | rfl
      · exact (hbehind hy).symm
      · exact absurd rfl hne

end GoofyOs
