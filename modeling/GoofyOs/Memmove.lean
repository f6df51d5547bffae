import GoofyOs.LibkMem

/-!
# `memmove`

`memmove` copies from the first byte on when the destination is below the source, and from the last
byte on otherwise. Either way no byte of the source is overwritten before it was copied.

## Main definitions

* `ByteMem.memmove` — the code
* `ByteMem.moved` — memory with a part of the range copied

## Main results

* `ByteMem.memmove_byte` — what `memmove` leaves in memory
* `memmove_copies` — the whole range is copied, and nothing else changes
-/

namespace GoofyOs

namespace ByteMem

/-- The loop that copies upwards, from byte `i` on. -/
def memmoveUp (dst src size i : ℕ) (m : ByteMem) : ByteMem :=
  if i < size then memmoveUp dst src size (i + 1) (m.store (dst + i) (m.byte (src + i))) else m
termination_by size - i

/-- The loop that copies downwards, from the byte below `i` on. -/
def memmoveDown (dst src : ℕ) : ℕ → ByteMem → ByteMem
  | 0, m => m
  | i + 1, m => memmoveDown dst src i (m.store (dst + i) (m.byte (src + i)))

/-- `memmove`, without its result. -/
def memmove (m : ByteMem) (dst src size : ℕ) : ByteMem :=
  if dst < src then memmoveUp dst src size 0 m else memmoveDown dst src size m

/-- The memory with the bytes from `lo` to `hi` of a range copied. -/
def moved (f : ℕ → UInt8) (dst src lo hi a : ℕ) : UInt8 :=
  if dst + lo ≤ a ∧ a < dst + hi then f (src + (a - dst)) else f a

variable {m : ByteMem} {f : ℕ → UInt8} {dst src size lo hi i : ℕ}

theorem moved_self (f : ℕ → UInt8) (dst src i : ℕ) : moved f dst src i i = f := by
  funext a
  rw [moved, if_neg (by omega)]

/-- One more byte at the end. -/
theorem update_moved_end (h : lo ≤ hi) : Function.update (moved f dst src lo hi) (dst + hi)
    (f (src + hi)) = moved f dst src lo (hi + 1) := by
  funext a
  by_cases ha : a = dst + hi
  · rw [ha, Function.update_self, moved, if_pos (by omega), Nat.add_sub_cancel_left]
  · rw [Function.update_of_ne ha, moved, moved]
    simp only [show (dst + lo ≤ a ∧ a < dst + (hi + 1)) ↔ (dst + lo ≤ a ∧ a < dst + hi) by omega]

/-- One more byte at the start. -/
theorem update_moved_start (h : lo < hi) : Function.update (moved f dst src (lo + 1) hi) (dst + lo)
    (f (src + lo)) = moved f dst src lo hi := by
  funext a
  by_cases ha : a = dst + lo
  · rw [ha, Function.update_self, moved, if_pos (by omega), Nat.add_sub_cancel_left]
  · rw [Function.update_of_ne ha, moved, moved]
    simp only [show (dst + (lo + 1) ≤ a ∧ a < dst + hi) ↔ (dst + lo ≤ a ∧ a < dst + hi) by omega]

/-- **The loop upwards.** What is left of the source is above what was stored. -/
theorem memmoveUp_byte (hlt : dst < src) (hi : i ≤ size) (hm : m.byte = moved f dst src 0 i) :
    (memmoveUp dst src size i m).byte = moved f dst src 0 size := by
  induction hk : size - i generalizing i m with
  | zero =>
    obtain rfl : i = size := by omega
    rw [memmoveUp, if_neg (Nat.lt_irrefl i), hm]
  | succ k ih =>
    have hread : m.byte (src + i) = f (src + i) := by rw [hm, moved, if_neg (by omega)]
    rw [memmoveUp, if_pos (by omega)]
    refine ih (by omega) ?_ (by omega)
    rw [store_byte, hread, hm, update_moved_end (Nat.zero_le i)]

/-- **The loop downwards.** What is left of the source is below what was stored. -/
theorem memmoveDown_byte (hle : src ≤ dst) (hi : i ≤ size) (hm : m.byte = moved f dst src i size) :
    (memmoveDown dst src i m).byte = moved f dst src 0 size := by
  induction i generalizing m with
  | zero => exact hm
  | succ i ih =>
    have hread : m.byte (src + i) = f (src + i) := by rw [hm, moved, if_neg (by omega)]
    rw [memmoveDown]
    refine ih (by omega) ?_
    rw [store_byte, hread, hm, update_moved_start (by omega)]

/-- **`memmove`** copies the whole range, as it was before. -/
theorem memmove_byte (m : ByteMem) (dst src size : ℕ) :
    (m.memmove dst src size).byte = moved m.byte dst src 0 size := by
  rw [memmove]
  split
  · next hlt => exact memmoveUp_byte hlt (Nat.zero_le size) (moved_self _ _ _ 0).symm
  · next hge => exact memmoveDown_byte (Nat.not_lt.mp hge) le_rfl (moved_self _ _ _ size).symm

end ByteMem

/-- **`memmove`** copies a range, wherever it goes, and leaves all other bytes as they were. -/
theorem memmove_copies (m : ByteMem) (dst src size : ℕ) :
    (∀ i < size, (m.memmove dst src size).byte (dst + i) = m.byte (src + i)) ∧
      ∀ a, (∀ i < size, a ≠ dst + i) → (m.memmove dst src size).byte a = m.byte a := by
  rw [ByteMem.memmove_byte]
  refine ⟨fun i hi => ?_, fun a ha => ?_⟩
  · rw [ByteMem.moved, if_pos (by omega), Nat.add_sub_cancel_left]
  · exact if_neg fun hin => ha (a - dst) (by omega) (by omega)

/-- Three bytes, moved up by one. -/
example : (List.range 5).map
    ((ByteMem.mk (fun a => [1, 2, 3, 4, 5].getD a 0) []).memmove 1 0 3).byte = [1, 1, 2, 3, 5] := by
  decide

end GoofyOs
