import Mathlib.Data.Nat.Notation
import Mathlib.Order.Basic
import Mathlib.Tactic.Ring

/-!
# Time

The HPET counts periods of some femtoseconds. `hpet_us_since_boot` multiplies the counter by the
period and divides by the femtoseconds of a microsecond, and `hpet_wait_us` goes the other way.
Both products are of 64 bits. The first one wraps around after `2 ^ 64` femtoseconds, which is
about five hours, and so does the second one for a wait of that time.

## Main definitions

* `Hpet.usSinceBoot`, `Hpet.waitUs` — the code
* `HpetTimes` — the times are right up to a reading of the counter

## Main results

* `Hpet.waitLoop_eq_some_iff` — where the loop ends
* `hpetTimes_iff` — when the times are right
-/

namespace GoofyOs

/-- `struct hpet`. The registers are not part of it. -/
structure Hpet where
  period : UInt64
  initialized : Bool

/-- `FEMTOSECONDS_PER_US`. -/
def femtosecondsPerUs : UInt64 := 1000000000

namespace Hpet

variable (h : Hpet)

/-- `hpet_us_since_boot`, for a reading of the counter. -/
def usSinceBoot (c : UInt64) : UInt64 :=
  if h.initialized then c * h.period / 1000000000 else 0

/-- The loop of `hpet_wait_us` from a reading on: the number of the one that ends it. -/
def waitLoop (counter : ℕ → UInt64) (target : UInt64) : ℕ → ℕ → Option ℕ
  | 0, _ => none
  | fuel + 1, i => if counter i < target then waitLoop counter target fuel (i + 1) else some i

/-- `hpet_wait_us`, for what is read from the counter one time after another. A period of zero
cannot be divided by. -/
def waitUs (counter : ℕ → UInt64) (us : UInt64) (fuel : ℕ) : Option ℕ :=
  if h.period = 0 then none
  else
    let cur := counter 0
    let target := cur + us * femtosecondsPerUs / h.period
    waitLoop counter target fuel 1

end Hpet

/-- The times are right as long as the counter is not above `top`: the microseconds since boot are
those of the counter, they do not decrease, and a wait that starts at `cur` ends when as many
microseconds have gone by, or one less. -/
structure HpetTimes (h : Hpet) (us cur top : UInt64) : Prop where
  floor : ∀ c ≤ top, (h.usSinceBoot c).toNat = c.toNat * h.period.toNat / 10 ^ 9
  mono : ∀ c c', c ≤ c' → c' ≤ top → h.usSinceBoot c ≤ h.usSinceBoot c'
  wait : ∀ (counter : ℕ → UInt64) (fuel n : ℕ), (∀ i j, i ≤ j → counter i ≤ counter j) →
    counter 0 = cur → (∀ i, counter i ≤ top) → h.waitUs counter us fuel = some n →
      (h.usSinceBoot cur).toNat + us.toNat ≤ (h.usSinceBoot (counter n)).toNat + 1

namespace Hpet

variable {h : Hpet} {c cur us top target : UInt64} {counter : ℕ → UInt64} {fuel i n : ℕ}

/-- **The loop** ends at the first reading that is not below the target. -/
theorem waitLoop_eq_some_iff : waitLoop counter target fuel i = some n ↔
    i ≤ n ∧ n < i + fuel ∧ target ≤ counter n ∧ ∀ j, i ≤ j → j < n → counter j < target := by
  induction fuel generalizing i with
  | zero =>
    rw [waitLoop]
    exact ⟨fun h => absurd h (Option.some_ne_none n).symm, fun ⟨hi, hn, _⟩ => by omega⟩
  | succ fuel ih =>
    rw [waitLoop]
    split
    · next hlt =>
      rw [ih]
      constructor
      · rintro ⟨hi, hn, hend, hbelow⟩
        refine ⟨by omega, by omega, hend, fun j hj hjn => ?_⟩
        rcases Nat.eq_or_lt_of_le hj with rfl | hj
        · exact hlt
        · exact hbelow j hj hjn
      · rintro ⟨hi, hn, hend, hbelow⟩
        have hne : i ≠ n := by
          rintro rfl
          exact absurd hlt (UInt64.not_lt.mpr hend)
        exact ⟨by omega, by omega, hend, fun j hj hjn => hbelow j (by omega) hjn⟩
    · next hge =>
      constructor
      · intro h
        obtain rfl := Option.some.inj h
        exact ⟨le_rfl, by omega, UInt64.not_lt.mp hge, fun j hj hjn => by omega⟩
      · rintro ⟨hi, hn, hend, hbelow⟩
        rcases Nat.eq_or_lt_of_le hi with rfl | hi
        · rfl
        · exact absurd (hbelow i le_rfl hi) hge

/-- The product of the counter and the period wraps around. -/
theorem toNat_usSinceBoot (hinit : h.initialized = true) (c : UInt64) :
    (h.usSinceBoot c).toNat = c.toNat * h.period.toNat % 2 ^ 64 / 10 ^ 9 := by
  rw [usSinceBoot, if_pos hinit, UInt64.toNat_div, UInt64.toNat_mul]
  rfl

/-- The target of a wait, when the one that is meant fits. -/
theorem toNat_target (hfits : cur.toNat + us.toNat * 10 ^ 9 / h.period.toNat < 2 ^ 64) :
    (cur + us * femtosecondsPerUs / h.period).toNat =
      cur.toNat + us.toNat * 10 ^ 9 % 2 ^ 64 / h.period.toNat := by
  have hle : us.toNat * 10 ^ 9 % 2 ^ 64 / h.period.toNat ≤ us.toNat * 10 ^ 9 / h.period.toNat :=
    Nat.div_le_div_right (Nat.mod_le _ _)
  rw [UInt64.toNat_add, UInt64.toNat_div, UInt64.toNat_mul]
  exact Nat.mod_eq_of_lt (Nat.lt_of_le_of_lt (Nat.add_le_add_left hle _) hfits)

/-- Below a reading for which the product fits, nothing wraps around. -/
theorem toNat_usSinceBoot_of_le (hinit : h.initialized = true)
    (htop : top.toNat * h.period.toNat < 2 ^ 64) (hc : c ≤ top) :
    (h.usSinceBoot c).toNat = c.toNat * h.period.toNat / 10 ^ 9 := by
  have hle : c.toNat * h.period.toNat ≤ top.toNat * h.period.toNat :=
    Nat.mul_le_mul_right _ hc
  rw [toNat_usSinceBoot hinit, Nat.mod_eq_of_lt (Nat.lt_of_le_of_lt hle htop)]

/-- From one reading to another that is later by the periods of a wait. -/
theorem add_le_of_target {p a b w : ℕ} (hpos : 1 ≤ p) (hmax : p ≤ 10 ^ 8)
    (h : a + w * 10 ^ 9 / p ≤ b) : a * p / 10 ^ 9 + w ≤ b * p / 10 ^ 9 + 1 := by
  have hmul : (a + w * 10 ^ 9 / p) * p ≤ b * p := Nat.mul_le_mul_right p h
  have hdiv := Nat.div_add_mod (w * 10 ^ 9) p
  have hmod := Nat.mod_lt (w * 10 ^ 9) hpos
  rw [Nat.add_mul, Nat.mul_comm (w * 10 ^ 9 / p)] at hmul
  omega

/-- A wait whose product wraps around is too short. -/
theorem lt_of_wrapped {p a w : ℕ} (h : 2 ^ 64 ≤ w * 10 ^ 9) :
    (a + w * 10 ^ 9 % 2 ^ 64 / p) * p / 10 ^ 9 + 1 < a * p / 10 ^ 9 + w := by
  have hmul : w * 10 ^ 9 % 2 ^ 64 / p * p ≤ w * 10 ^ 9 % 2 ^ 64 := Nat.div_mul_le_self _ _
  rw [Nat.add_mul]
  omega

/-- A counter that is at one value, and at another one from the second reading on. -/
def jump (cur target : UInt64) (i : ℕ) : UInt64 := if i = 0 then cur else target

theorem jump_mono (hle : cur ≤ target) (i j : ℕ) (hij : i ≤ j) :
    jump cur target i ≤ jump cur target j := by
  rw [jump, jump]
  split_ifs
  · exact UInt64.le_refl _
  · exact hle
  · omega
  · exact UInt64.le_refl _

theorem jump_le (hle : cur ≤ top) (hle' : target ≤ top) (i : ℕ) : jump cur target i ≤ top := by
  rw [jump]
  split
  · exact hle
  · exact hle'

end Hpet

open Hpet

/-- **The times are right** just when the product of the largest reading and the period fits in 64
bits, and the one for the wait does, or the wait does not end. -/
theorem hpetTimes_iff (h : Hpet) (us cur top : UInt64) (hinit : h.initialized = true)
    (hpos : 1 ≤ h.period.toNat) (hmax : h.period.toNat ≤ 10 ^ 8) (hcur : cur ≤ top)
    (hfits : cur.toNat + us.toNat * 10 ^ 9 / h.period.toNat < 2 ^ 64) :
    HpetTimes h us cur top ↔ top.toNat * h.period.toNat < 2 ^ 64 ∧
      (us.toNat * 10 ^ 9 < 2 ^ 64 ∨
        top.toNat < cur.toNat + us.toNat * 10 ^ 9 % 2 ^ 64 / h.period.toNat) := by
  have hperiod : h.period ≠ 0 := by
    rintro hzero
    rw [hzero] at hpos
    exact absurd hpos (by decide)
  have htarget := toNat_target hfits
  constructor
  · intro htimes
    have htop : top.toNat * h.period.toNat < 2 ^ 64 := by
      have hfloor := htimes.floor top (UInt64.le_refl top)
      rw [toNat_usSinceBoot hinit] at hfloor
      omega
    refine ⟨htop, ?_⟩
    by_contra hnot
    obtain ⟨hwrap, hreach⟩ := not_or.mp hnot
    -- the counter jumps to the target, and the wait ends there
    generalize hgen : cur + us * femtosecondsPerUs / h.period = target at htarget
    have hle : target ≤ top := UInt64.le_iff_toNat_le.mpr (by omega)
    have hge : cur ≤ target := UInt64.le_iff_toNat_le.mpr (htarget ▸ Nat.le_add_right _ _)
    have hend : h.waitUs (jump cur target) us 1 = some 1 := by
      rw [waitUs, if_neg hperiod]
      refine waitLoop_eq_some_iff.mpr ⟨le_rfl, by omega, ?_, fun j hj hj' => by omega⟩
      exact hgen ▸ UInt64.le_refl _
    have hwait := htimes.wait _ 1 1 (jump_mono hge) rfl (jump_le hcur hle) hend
    rw [htimes.floor cur hcur, show jump cur target 1 = target from rfl, htimes.floor target hle,
      htarget] at hwait
    exact absurd (lt_of_wrapped (Nat.not_lt.mp hwrap)) (Nat.not_lt.mpr hwait)
  · rintro ⟨htop, hshort⟩
    have hfloor : ∀ c ≤ top, (h.usSinceBoot c).toNat = c.toNat * h.period.toNat / 10 ^ 9 :=
      fun c hc => toNat_usSinceBoot_of_le hinit htop hc
    refine ⟨hfloor, fun c c' hcc' hc' => ?_, fun counter fuel n hmono hstart hbound hend => ?_⟩
    · rw [UInt64.le_iff_toNat_le, hfloor c (UInt64.le_trans hcc' hc'), hfloor c' hc']
      exact Nat.div_le_div_right (Nat.mul_le_mul_right _ hcc')
    · rw [waitUs, if_neg hperiod] at hend
      obtain ⟨-, -, hreach, -⟩ := waitLoop_eq_some_iff.mp hend
      rw [hstart, UInt64.le_iff_toNat_le, htarget] at hreach
      rcases hshort with hfit | hnever
      · rw [Nat.mod_eq_of_lt hfit] at hreach
        rw [hfloor cur hcur, hfloor (counter n) (hbound n)]
        exact add_le_of_target hpos hmax hreach
      · have hle : (counter n).toNat ≤ top.toNat := hbound n
        omega

/-- A wait of ten milliseconds from zero on, with a counter of 14.3 MHz. -/
theorem hpetTimes_iff_10000 : HpetTimes ⟨69841279, true⟩ 10000 0 1000000 :=
  (hpetTimes_iff ⟨69841279, true⟩ 10000 0 1000000 rfl (by decide) (by decide) (by decide)
    (by decide)).mpr (by decide)

/-- A counter of 10 MHz, after a little more than five hours. -/
theorem not_hpetTimes : ¬ ∀ (h : Hpet) (us cur top : UInt64), h.initialized = true →
    1 ≤ h.period.toNat → h.period.toNat ≤ 10 ^ 8 → cur ≤ top →
      cur.toNat + us.toNat * 10 ^ 9 / h.period.toNat < 2 ^ 64 → HpetTimes h us cur top := by
  intro hall
  have htimes := hall ⟨100000000, true⟩ 0 0 184467440738 rfl (by decide) (by decide) (by decide)
    (by decide)
  exact absurd (htimes.floor 184467440738 (by decide)) (by decide)

end GoofyOs
