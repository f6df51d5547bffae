import GoofyOs.Memmove
import Mathlib.Algebra.Order.Group.Nat

/-!
# `memcpy` on ranges that overlap

`memcpy` copies upwards whatever the ranges are. When the destination starts inside the source, it
reads bytes that it has written before, and the start of the source is repeated up to the end of the
destination.

## Main results

* `ByteMem.memcpy_byte_of_le`, `ByteMem.memcpy_byte_of_lt` — what `memcpy` leaves in memory
* `memcpy_smears` — for all ranges, and when it agrees with `memmove`
-/

namespace GoofyOs

namespace ByteMem

variable {m : ByteMem} {dst src n : ℕ}

/-- The last byte that is copied. -/
theorem memcpy_succ (dst src n : ℕ) (m : ByteMem) : memcpy dst src (n + 1) m =
    (memcpy dst src n m).store (dst + n) ((memcpy dst src n m).byte (src + n)) := by
  induction n generalizing dst src m with
  | zero => rfl
  | succ n ih =>
    rw [memcpy, ih, ← memcpy, Nat.add_right_comm dst 1 n, Nat.add_right_comm src 1 n]
    rfl

/-- Copying downwards, or to the same place. -/
theorem memcpy_byte_of_le (h : dst ≤ src) : (memcpy dst src n m).byte = moved m.byte dst src 0 n := by
  induction n with
  | zero => exact (moved_self _ _ _ _).symm
  | succ n ih =>
    have hread : moved m.byte dst src 0 n (src + n) = m.byte (src + n) := by
      rw [moved, if_neg (by omega)]
    rw [memcpy_succ, store_byte, ih, hread, update_moved_end (Nat.zero_le n)]

/-- Copying upwards repeats the bytes that lie below the destination. -/
theorem memcpy_byte_of_lt (h : src < dst) (a : ℕ) : (memcpy dst src n m).byte a =
    if dst ≤ a ∧ a < dst + n then m.byte (src + (a - dst) % (dst - src)) else m.byte a := by
  induction n generalizing a with
  | zero => rw [if_neg (by omega), memcpy]
  | succ n ih =>
    -- the byte that is copied last was copied itself, one period before
    have hread : (memcpy dst src n m).byte (src + n) = m.byte (src + n % (dst - src)) := by
      rw [ih]
      split_ifs with hn
      · have hsub : src + n - dst = n - (dst - src) := by omega
        rw [hsub, ← Nat.mod_eq_sub_mod (by omega)]
      · rw [Nat.mod_eq_of_lt (by omega)]
    rw [memcpy_succ, store_byte, hread]
    by_cases ha : a = dst + n
    · rw [ha, Function.update_self, if_pos (by omega), Nat.add_sub_cancel_left]
    · rw [Function.update_of_ne ha, ih]
      exact if_congr (by omega) rfl rfl

/-- Ranges that do not overlap are copied. -/
theorem memcpy_byte_of_disjoint (h : src + n ≤ dst ∨ dst + n ≤ src) :
    (memcpy dst src n m).byte = moved m.byte dst src 0 n := by
  rcases Nat.lt_or_ge src dst with hlt | hle
  · funext a
    rw [memcpy_byte_of_lt hlt, moved]
    split_ifs with ha
    · rw [Nat.mod_eq_of_lt (by omega)]
    · omega
    · omega
    · rfl
  · exact memcpy_byte_of_le hle

end ByteMem

/-- **What `memcpy` leaves in memory, for all ranges.** It does what `memmove` does unless the
destination starts inside the source. -/
theorem memcpy_smears (dst src n : ℕ) :
    (∀ (m : ByteMem) (a : ℕ), (ByteMem.memcpy dst src n m).byte a =
      if dst ≤ a ∧ a < dst + n then
        m.byte (src + (a - dst) % (if src < dst then dst - src else n))
      else m.byte a) ∧
    ((∀ m : ByteMem, (ByteMem.memcpy dst src n m).byte = (m.memmove dst src n).byte) ↔
      ¬ (src < dst ∧ dst < src + n)) := by
  have hbyte (m : ByteMem) (a : ℕ) : (ByteMem.memcpy dst src n m).byte a =
      if dst ≤ a ∧ a < dst + n then
        m.byte (src + (a - dst) % (if src < dst then dst - src else n))
      else m.byte a := by
    split_ifs with ha hlt
    · rw [ByteMem.memcpy_byte_of_lt hlt, if_pos ha]
    · rw [ByteMem.memcpy_byte_of_le (by omega), ByteMem.moved, if_pos (by omega),
        Nat.mod_eq_of_lt (by omega)]
    · exact ByteMem.memcpy_byte_of_notMem (by rw [List.mem_range'_1]; omega)
  refine ⟨hbyte, ?_, ?_⟩
  · rintro h ⟨hlt, hin⟩
    -- a memory in which the first byte of the source differs from the others
    have hrun := congrFun (h ⟨fun a => if a = src then 1 else 0, []⟩) (dst + (dst - src))
    rw [hbyte, if_pos (by omega), if_pos hlt, ByteMem.memmove_byte, ByteMem.moved,
      if_pos (by omega), Nat.add_sub_cancel_left, Nat.mod_self, Nat.add_zero] at hrun
    simp only [if_true, show src + (dst - src) ≠ src by omega, if_false] at hrun
    exact absurd hrun (by decide)
  · intro h m
    rw [ByteMem.memmove_byte]
    rcases Nat.lt_or_ge src dst with hlt | hle
    · exact ByteMem.memcpy_byte_of_disjoint (.inl (by omega))
    · exact ByteMem.memcpy_byte_of_le hle

end GoofyOs
