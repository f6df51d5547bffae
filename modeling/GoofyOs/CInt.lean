import Mathlib.Algebra.Group.Int.Defs
import Mathlib.Algebra.Group.Nat.Defs
import Mathlib.Data.Int.Basic

/-!
# C integer conversions

Integers of the source are `ℕ` or `ℤ`. Where a conversion or a wrap-around can be seen, it is
written out with the functions below.
-/

namespace GoofyOs

/-- Conversion to `unsigned int`. -/
def asUint (n : ℕ) : ℕ := n % 2 ^ 32

/-- Conversion of a `long` to `int`. -/
def asInt (n : ℤ) : ℤ := n.bmod (2 ^ 32)

/-- The value of a `char`, which is signed. -/
def charVal (c : UInt8) : ℤ := c.toBitVec.toInt

theorem charVal_inj {c d : UInt8} : charVal c = charVal d ↔ c = d := by
  rw [charVal, charVal, BitVec.toInt_inj, UInt8.toBitVec_inj]

theorem asUint_of_lt {n : ℕ} (h : n < 2 ^ 32) : asUint n = n := Nat.mod_eq_of_lt h

theorem asInt_of_lt {n : ℤ} (h : -2 ^ 31 ≤ n) (h' : n < 2 ^ 31) : asInt n = n := by
  rw [asInt, Int.bmod_def]
  omega

theorem asInt_bounds (n : ℤ) : -2 ^ 31 ≤ asInt n ∧ asInt n < 2 ^ 31 := by
  rw [asInt, Int.bmod_def]
  omega

theorem asInt_eq_self_iff {n : ℤ} : asInt n = n ↔ -2 ^ 31 ≤ n ∧ n < 2 ^ 31 := by
  constructor
  · intro h
    rw [← h]
    exact asInt_bounds n
  · exact fun ⟨h, h'⟩ => asInt_of_lt h h'

theorem asInt_asInt_add (n m : ℤ) : asInt (asInt n + m) = asInt (n + m) := Int.bmod_add_bmod

theorem asInt_asInt_mul (n m : ℤ) : asInt (asInt n * m) = asInt (n * m) := Int.bmod_mul_bmod

/-- `count--` on an `unsigned int` that is not zero. -/
theorem asUint_pred {n : ℕ} (h : 0 < n) (h' : n < 2 ^ 32) : asUint (n + (2 ^ 32 - 1)) = n - 1 := by
  rw [asUint]
  omega

end GoofyOs
