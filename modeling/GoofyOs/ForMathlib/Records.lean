import GoofyOs.ForMathlib.Trail
import Mathlib.Data.List.Basic

/-!
# Walking over records of variable length

Records lie one after another, and the length of each is found in it. A walk goes from each record
to the next one, up to a limit. It comes to an end just when records of non-zero length lead past
the limit.

## Main definitions

* `Records` — records one after another
* `recordWalk` — one step of the walk

## Main results

* `Records.trail` — the walk visits the records in order
* `recordWalk_ends_iff` — when it ends
-/

namespace GoofyOs

/-- The records from `o` to `stop`. Each of them begins where the one before it ends, and none is
empty. -/
def Records (len : ℕ → ℕ) : ℕ → List ℕ → ℕ → Prop
  | o, [], stop => o = stop
  | o, r :: rs, stop => r = o ∧ 0 < len o ∧ Records len (o + len o) rs stop

/-- From a position below the limit to the end of the record there. -/
def recordWalk (len : ℕ → ℕ) (limit o : ℕ) : Option ℕ :=
  if o < limit then some (o + len o) else none

variable {len : ℕ → ℕ} {limit o k stop : ℕ} {rs rs' : List ℕ}

instance : (o : ℕ) → (rs : List ℕ) → Decidable (Records len o rs stop)
  | o, [] => inferInstanceAs (Decidable (o = stop))
  | o, r :: rs =>
    have := instDecidableRecords (o + len o) rs
    inferInstanceAs (Decidable (r = o ∧ 0 < len o ∧ Records len (o + len o) rs stop))

theorem recordWalk_of_lt (h : o < limit) : recordWalk len limit o = some (o + len o) := if_pos h

namespace Records

theorem le (h : Records len o rs stop) : o ≤ stop := by
  induction rs generalizing o with
  | nil => exact Nat.le_of_eq h
  | cons r rs ih =>
    obtain ⟨-, -, hrest⟩ := h
    have hle := ih hrest
    omega

/-- Every record lies between the two ends. -/
theorem bounds {r : ℕ} (h : Records len o rs stop) (hr : r ∈ rs) :
    o ≤ r ∧ 0 < len r ∧ r + len r ≤ stop := by
  induction rs generalizing o with
  | nil => exact absurd hr List.not_mem_nil
  | cons r' rs ih =>
    obtain ⟨rfl, hpos, hrest⟩ := h
    rcases List.mem_cons.mp hr with rfl | hr
    · exact ⟨Nat.le_refl r, hpos, hrest.le⟩
    · obtain ⟨hle, hbounds⟩ := ih hrest hr
      exact ⟨by omega, hbounds⟩

/-- **The walk** visits the records in order, and then it is at their end. -/
theorem trail (h : Records len o rs stop) (hlimit : stop ≤ limit) (hk : k ≤ rs.length) :
    trail (recordWalk len limit) o k = (rs ++ [stop])[k]? := by
  induction k generalizing o rs with
  | zero =>
    cases rs with
    | nil =>
      obtain rfl : o = stop := h
      rfl
    | cons r rs =>
      obtain ⟨rfl, -, -⟩ := h
      rfl
  | succ k ih =>
    cases rs with
    | nil => exact absurd hk (Nat.not_succ_le_zero k)
    | cons r rs =>
      obtain ⟨-, hpos, hrest⟩ := h
      have hlt : o < limit := by
        have hle := hrest.le
        omega
      rw [trail_succ_of_eq (recordWalk_of_lt hlt), ih hrest (Nat.le_of_succ_le_succ hk)]
      rfl

end Records

/-- An empty record below the limit is never left. -/
theorem trail_of_empty (hlt : o < limit) (hempty : len o = 0) :
    trail (recordWalk len limit) o k = some o := by
  induction k with
  | zero => rfl
  | succ k ih =>
    rw [trail_succ, ih, Option.bind_some, recordWalk, if_pos hlt, hempty, Nat.add_zero]

/-- **The end of the walk.** The walk ends just when records lead up to the limit or past it. -/
theorem recordWalk_ends_iff : (∃ k, trail (recordWalk len limit) o k = none) ↔
    ∃ rs stop, Records len o rs stop ∧ limit ≤ stop := by
  constructor
  · rintro ⟨k, hk⟩
    induction k generalizing o with
    | zero => cases hk
    | succ k ih =>
      by_cases hlt : o < limit
      · rw [trail_succ_of_eq (recordWalk_of_lt hlt)] at hk
        by_cases hempty : len o = 0
        · rw [hempty, Nat.add_zero, trail_of_empty hlt hempty] at hk
          cases hk
        · obtain ⟨rs, stop, hrs, hle⟩ := ih hk
          exact ⟨o :: rs, stop, ⟨rfl, Nat.pos_of_ne_zero hempty, hrs⟩, hle⟩
      · exact ⟨[], o, rfl, Nat.le_of_not_lt hlt⟩
  · rintro ⟨rs, stop, hrs, hle⟩
    induction rs generalizing o with
    | nil =>
      obtain rfl : o = stop := hrs
      exact ⟨1, if_neg (Nat.not_lt.mpr hle)⟩
    | cons r rs ih =>
      obtain ⟨-, -, hrest⟩ := hrs
      by_cases hlt : o < limit
      · obtain ⟨k, hk⟩ := ih hrest
        exact ⟨k + 1, (trail_succ_of_eq (recordWalk_of_lt hlt)).trans hk⟩
      · exact ⟨1, if_neg hlt⟩

end GoofyOs
