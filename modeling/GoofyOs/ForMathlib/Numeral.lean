import Mathlib.Data.List.Induction
import Mathlib.Data.Nat.Init
import Mathlib.Tactic.Ring

/-!
# Numerals

A numeral is a string of digits, the first digit first. It has no leading zero, unless it is the
zero. A number has one numeral at most.

## Main definitions

* `Digits α base` — which characters are digits, and their values
* `Digits.read` — the value of a string of digits
* `Digits.IsNumeral` — a string is a numeral of a number

## Main results

* `Digits.read_concat`, `Digits.read_append` — a digit, or a string of digits, behind others
* `Digits.IsNumeral.unique` — a number has one numeral
-/

namespace GoofyOs

/-- The digits of a base. Each value has one character. -/
@[ext]
structure Digits (α : Type) (base : ℕ) where
  value : α → Option ℕ
  value_lt : ∀ {c d}, value c = some d → d < base
  value_inj : ∀ {c c' d}, value c = some d → value c' = some d → c = c'

namespace Digits

variable {α : Type} {base : ℕ} (D : Digits α base)

/-- The value of a string of digits. -/
def read (s : List α) : Option ℕ := s.foldlM (fun v c => (D.value c).map (v * base + ·)) 0

/-- A string is a numeral of a number. -/
structure IsNumeral (s : List α) (n : ℕ) : Prop where
  ne_nil : s ≠ []
  lead : ∀ c ∈ s.head?, D.value c = some 0 → s = [c]
  read_eq : D.read s = some n

variable {D} {s s' : List α} {c : α} {n d : ℕ}

theorem read_concat (s : List α) (c : α) :
    D.read (s ++ [c]) = (D.read s).bind fun v => (D.value c).map (v * base + ·) := by
  rw [read, List.foldlM_append]
  refine congrArg (Option.bind _) (funext fun v => ?_)
  rw [List.foldlM_cons]
  exact bind_pure _

theorem read_concat_eq_some : D.read (s ++ [c]) = some n ↔
    ∃ v d, D.read s = some v ∧ D.value c = some d ∧ v * base + d = n := by
  rw [read_concat, Option.bind_eq_some_iff]
  simp only [Option.map_eq_some_iff]
  exact exists_congr fun v => ⟨fun ⟨hv, d, hd⟩ => ⟨d, hv, hd⟩, fun ⟨d, hv, hd⟩ => ⟨hv, d, hd⟩⟩

/-- The characters of a numeral are digits. -/
theorem value_of_mem (h : D.read s = some n) (hc : c ∈ s) : ∃ d, D.value c = some d := by
  induction s using List.reverseRecOn generalizing n with
  | nil => cases hc
  | append_singleton s last ih =>
    obtain ⟨v, d, hv, hd, -⟩ := read_concat_eq_some.mp h
    rcases List.mem_append.mp hc with hc | hc
    · exact ih hv hc
    · exact ⟨d, List.mem_singleton.mp hc ▸ hd⟩

/-- What stands in front of the last digit has no leading zero either. -/
theorem lead_of_concat (hlead : ∀ a ∈ (s ++ [c]).head?, D.value a ≠ some 0) :
    ∀ a ∈ s.head?, D.value a ≠ some 0 := by
  intro a ha
  refine hlead a ?_
  rw [List.head?_append, Option.mem_def.mp ha]
  rfl

/-- Without a leading zero the value is not zero. -/
theorem read_pos (hlead : ∀ c ∈ s.head?, D.value c ≠ some 0) (hne : s ≠ [])
    (h : D.read s = some n) : 0 < n := by
  induction s using List.reverseRecOn generalizing n with
  | nil => exact absurd rfl hne
  | append_singleton s c ih =>
    obtain ⟨v, d, hv, hd, rfl⟩ := read_concat_eq_some.mp h
    have hbase := D.value_lt hd
    by_cases hs : s = []
    · subst hs
      have hzero := hlead c rfl
      rw [hd, ne_eq, Option.some.injEq] at hzero
      omega
    · have hv' := Nat.mul_pos (ih (lead_of_concat hlead) hs hv) (Nat.zero_lt_of_lt hbase)
      omega

/-- Without leading zeros, the value says what the digits are. -/
theorem eq_of_read (hlead : ∀ c ∈ s.head?, D.value c ≠ some 0)
    (hlead' : ∀ c ∈ s'.head?, D.value c ≠ some 0) (h : D.read s = some n)
    (h' : D.read s' = some n) : s = s' := by
  induction s using List.reverseRecOn generalizing s' n with
  | nil =>
    cases h
    by_contra hne
    exact absurd (read_pos hlead' (Ne.symm hne) h') (Nat.lt_irrefl 0)
  | append_singleton s c ih =>
    have hpos := read_pos hlead (List.append_ne_nil_of_right_ne_nil _ (List.cons_ne_nil _ _)) h
    obtain ⟨v, d, hv, hd, rfl⟩ := read_concat_eq_some.mp h
    cases s' using List.reverseRecOn with
    | nil => exact absurd hpos (Nat.not_lt.mpr (Option.some.inj h').ge)
    | append_singleton s' c' =>
      obtain ⟨v', d', hv', hd', heq⟩ := read_concat_eq_some.mp h'
      have hlt := D.value_lt hd
      have hlt' := D.value_lt hd'
      have hdiv : v' = v := by
        have hquot := congrArg (· / base) heq
        simpa [Nat.mul_comm _ base, Nat.mul_add_div (Nat.zero_lt_of_lt hlt), Nat.div_eq_of_lt hlt,
          Nat.div_eq_of_lt hlt'] using hquot
      subst hdiv
      obtain rfl : d' = d := Nat.add_left_cancel heq
      rw [ih (lead_of_concat hlead) (lead_of_concat hlead') hv hv', D.value_inj hd hd']

namespace IsNumeral

/-- A numeral with a leading zero is the zero. -/
theorem eq_zero (h : D.IsNumeral s n) (hc : c ∈ s.head?) (hzero : D.value c = some 0) : n = 0 := by
  have hs := h.lead c hc hzero
  have hread : D.read ([] ++ [c]) = some n := hs ▸ h.read_eq
  obtain ⟨v, d, hv, hd, rfl⟩ := read_concat_eq_some.mp hread
  cases hv
  rw [hzero] at hd
  cases hd
  rw [Nat.zero_mul]

/-- **A number has one numeral.** -/
theorem unique (h : D.IsNumeral s n) (h' : D.IsNumeral s' n) : s = s' := by
  -- either both have a leading zero, or neither
  have hlead : ∀ {t t' : List α}, D.IsNumeral t n → D.IsNumeral t' n →
      (∃ c ∈ t.head?, D.value c = some 0) → ∃ c ∈ t'.head?, D.value c = some 0 := by
    rintro t t' ht ht' ⟨c, hc, hzero⟩
    by_contra hnot
    simp only [not_exists, not_and] at hnot
    have hpos := read_pos hnot ht'.ne_nil ht'.read_eq
    rw [ht.eq_zero hc hzero] at hpos
    exact absurd hpos (Nat.lt_irrefl 0)
  by_cases hz : ∃ c ∈ s.head?, D.value c = some 0
  · obtain ⟨c', hc', hzero'⟩ := hlead h h' hz
    obtain ⟨c, hc, hzero⟩ := hz
    rw [h.lead c hc hzero, h'.lead c' hc' hzero', D.value_inj hzero hzero']
  · have hz' : ¬ ∃ c ∈ s'.head?, D.value c = some 0 := mt (hlead h' h) hz
    simp only [not_exists, not_and] at hz hz'
    exact eq_of_read hz hz' h.read_eq h'.read_eq

end IsNumeral

end Digits

end GoofyOs
