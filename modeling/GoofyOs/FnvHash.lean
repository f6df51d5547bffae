import GoofyOs.Hashmap
import Mathlib.Data.List.Infix

/-!
# The hash of a key

`fnva_hash` is FNV-1a, except that it takes its bytes as `char`s, which are signed: a byte from
`0x80` on also turns around the upper 56 bits of the hash. The hash is another one from there on.
Only a second byte of that kind can bring the two together again.

## Main definitions

* `fnv1a` — FNV-1a of 64 bits
* `skew` — what a byte turns around in the hash that it should not

## Main results

* `fnvaStep_eq_iff` — what the loop does to two hashes
* `fnvaHash_eq_fnv1a_iff` — when `fnva_hash` is FNV-1a
-/

namespace GoofyOs

/-- The prime of FNV-1a for 64 bits. -/
def fnv1aPrime : ℕ := 2 ^ 40 + 2 ^ 8 + 0xb3

/-- The offset basis of FNV-1a for 64 bits. -/
def fnv1aOffset : ℕ := 14695981039346656037

/-- FNV-1a of 64 bits. -/
def fnv1a (data : List UInt8) : ℕ :=
  data.foldl (fun hash c => (hash ^^^ c.toNat) * fnv1aPrime % 2 ^ 64) fnv1aOffset

/-- The loop of `fnva_hash`, for one byte. -/
def fnvaStep (hash : BitVec 64) (c : UInt8) : BitVec 64 :=
  (hash ^^^ c.toBitVec.signExtend 64) * fnvPrime

/-- The same with an unsigned byte. -/
def fnv1aStep (hash : BitVec 64) (c : UInt8) : BitVec 64 :=
  (hash ^^^ c.toBitVec.setWidth 64) * fnvPrime

/-- The bits of the hash that the sign of a byte turns around. -/
def skew (c : UInt8) : BitVec 64 := c.toBitVec.signExtend 64 ^^^ c.toBitVec.setWidth 64

variable {c : UInt8} {data : List UInt8} {hash ref x y : BitVec 64}

theorem fnvaHash_eq (data : List UInt8) : fnvaHash data = data.foldl fnvaStep fnvOffset := rfl

/-- The reference, on words of 64 bits. -/
theorem fnv1a_eq (data : List UInt8) : fnv1a data = (data.foldl fnv1aStep fnvOffset).toNat := by
  have hoffset : fnv1aOffset = fnvOffset.toNat := by decide
  rw [fnv1a, hoffset]
  generalize fnvOffset = hash
  induction data generalizing hash with
  | nil => rfl
  | cons c data ih =>
    have hstep : (hash.toNat ^^^ c.toNat) * fnv1aPrime % 2 ^ 64 = (fnv1aStep hash c).toNat := by
      have hbyte : (c.toBitVec.setWidth 64).toNat = c.toNat := by
        rw [BitVec.toNat_setWidth]
        exact Nat.mod_eq_of_lt (Nat.lt_trans c.toNat_lt (by decide))
      rw [fnv1aStep, BitVec.toNat_mul, BitVec.toNat_xor, hbyte]
      rfl
    rw [List.foldl_cons, List.foldl_cons, hstep, ih]

/-- The prime is odd. -/
theorem mul_fnvPrime_inj : x * fnvPrime = y * fnvPrime ↔ x = y := by
  refine ⟨fun h => ?_, congrArg (· * fnvPrime)⟩
  have hinv : fnvPrime * 0xce965057aff6957b = 1#64 := by decide
  have hmul := congrArg (· * (0xce965057aff6957b : BitVec 64)) h
  simpa only [BitVec.mul_assoc, hinv, BitVec.mul_one] using hmul

/-- A byte below `0x80` is not negative. -/
theorem skew_eq_zero_iff : skew c = 0#64 ↔ c < 0x80 := by
  rw [skew, BitVec.xor_eq_zero_iff, ← BitVec.toInt_inj, BitVec.toInt_signExtend_of_le (by decide),
    BitVec.toInt_setWidth, BitVec.toInt_eq_toNat_bmod, UInt8.toNat_toBitVec, UInt8.lt_iff_toNat_lt]
  have hlt := c.toNat_lt
  have hhigh : (0x80 : UInt8).toNat = 128 := rfl
  rw [Int.bmod_def, Int.bmod_def]
  omega

/-- **One step.** The two hashes are the same afterwards just when they differed by what the byte
turns around. -/
theorem fnvaStep_eq_iff : fnvaStep hash c = fnv1aStep ref c ↔ hash ^^^ ref = skew c := by
  rw [fnvaStep, fnv1aStep, mul_fnvPrime_inj, skew]
  generalize c.toBitVec.signExtend 64 = a
  generalize c.toBitVec.setWidth 64 = b
  have hswap : hash ^^^ a ^^^ (ref ^^^ b) = hash ^^^ ref ^^^ (a ^^^ b) := by ac_rfl
  rw [← BitVec.xor_eq_zero_iff, hswap, BitVec.xor_eq_zero_iff]

/-- A step from the same hash. -/
theorem fnvaStep_self : fnvaStep hash c = fnv1aStep hash c ↔ c < 0x80 := by
  rw [fnvaStep_eq_iff, BitVec.xor_self, eq_comm, skew_eq_zero_iff]

/-- **`fnva_hash`** is FNV-1a, of a string and of all that it begins with, just when all bytes are
below `0x80`. -/
theorem fnvaHash_eq_fnv1a_iff (data : List UInt8) :
    (∀ pre, pre <+: data → (fnvaHash pre).toNat = fnv1a pre) ↔ ∀ c ∈ data, c < 0x80 := by
  simp only [fnv1a_eq, BitVec.toNat_inj, fnvaHash_eq]
  generalize fnvOffset = hash
  induction data generalizing hash with
  | nil => simp
  | cons c data ih =>
    rw [List.forall_mem_cons, ← ih (fnvaStep hash c)]
    constructor
    · intro h
      have hstep : fnvaStep hash c = fnv1aStep hash c := h [c] (List.prefix_append [c] data)
      refine ⟨fnvaStep_self.mp hstep, fun pre hpre => ?_⟩
      have hrest := h (c :: pre) ((List.prefix_cons_inj c).mpr hpre)
      rwa [List.foldl_cons, List.foldl_cons, ← hstep] at hrest
    · rintro ⟨hc, h⟩ pre hpre
      rcases List.prefix_cons_iff.mp hpre with rfl | ⟨t, rfl, ht⟩
      · rw [List.foldl_nil, List.foldl_nil]
      · rw [List.foldl_cons, List.foldl_cons, ← fnvaStep_self.mpr hc]
        exact h t ht

/-- Two bytes from `0x80` on can make up for each other. -/
example : (fnvaHash [0xa5, 0x80]).toNat = fnv1a [0xa5, 0x80] := by decide

/-- The byte `0x80`. -/
theorem not_fnvaHash_eq_fnv1a : ¬ ∀ data : List UInt8, data.length < 2 ^ 31 →
    (fnvaHash data).toNat = fnv1a data := by
  intro h
  exact absurd (h [0x80] (by decide)) (by decide)

end GoofyOs
