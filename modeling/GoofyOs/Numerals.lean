import GoofyOs.ForMathlib.Numeral
import GoofyOs.Numbers

/-!
# What the numbers say

`ltoa` writes the numeral of its number, in every base that there are characters for. So does
`itoa` in base 10, with a sign, for all numbers but the least. The remainders of that one are
negative, and what is written for them are characters in front of the `0`.

## Main definitions

* `asciiDigits base capital` — the digits of a base, with letters from ten on
* `IsInteger` — a numeral of base 10 with an optional sign

## Main results

* `isNumeral_ltoaText` — the string of `ltoa` is a numeral
* `ltoa_numeral` — what `ltoa` writes
* `itoa_integer_iff` — when `itoa` writes the number that it was given
-/

namespace GoofyOs

/-- The letter that stands for ten. -/
def letterTen (capital : ℤ) : ℕ := if capital ≠ 0 then 0x41 else 0x61

/-- The value of a digit: the digits come first, and then the letters. -/
def asciiValue (base : ℕ) (capital : ℤ) (c : UInt8) : Option ℕ :=
  if 0x30 ≤ c.toNat ∧ c.toNat ≤ 0x39 ∧ c.toNat - 0x30 < base then some (c.toNat - 0x30)
  else if letterTen capital ≤ c.toNat ∧ c.toNat < letterTen capital + 26 ∧
      c.toNat - letterTen capital + 10 < base then
    some (c.toNat - letterTen capital + 10)
  else none

/-- The digits of a base in ASCII, with capital letters or small ones. -/
def asciiDigits (base : ℕ) (capital : ℤ) : Digits UInt8 base where
  value := asciiValue base capital
  value_lt {c d} h := by
    rw [asciiValue] at h
    split_ifs at h with hdigit hletter <;> cases h
    · exact hdigit.2.2
    · exact hletter.2.2
  value_inj {c c' d} h h' := by
    rw [asciiValue] at h h'
    rw [← UInt8.toNat_inj]
    split_ifs at h h' <;> cases h <;> simp only [Option.some.injEq] at h' <;> omega

/-- A numeral of base 10, with a minus sign if the number is negative. -/
inductive IsInteger : List UInt8 → ℤ → Prop
  | nonneg {s : List UInt8} {n : ℕ} (h : (asciiDigits 10 0).IsNumeral s n) : IsInteger s n
  | neg {s : List UInt8} {n : ℕ} (hn : n ≠ 0) (h : (asciiDigits 10 0).IsNumeral s n) :
    IsInteger (0x2d :: s) (-n)

variable {base n d : ℕ} {capital num : ℤ} {s s' : List UInt8}

/-! ### The string of `ltoa` -/

/-- The character of a remainder has its value. -/
theorem asciiValue_digitChar (hd : d < base) (hbase : base ≤ 36) :
    asciiValue base capital (digitChar capital d) = some d := by
  have hnat : (digitChar capital d).toNat =
      if d ≤ 9 then d + 0x30 else d - 10 + letterTen capital := by
    rw [digitChar, letterTen]
    show (UInt8.ofNat ((_ : ℤ) % 2 ^ 8).toNat).toNat = _
    rw [UInt8.toNat_ofNat']
    split_ifs <;> omega
  have hletter : 0x39 < letterTen capital := by
    rw [letterTen]
    split <;> decide
  rw [asciiValue, hnat]
  by_cases hdigit : d ≤ 9
  · rw [if_pos hdigit, if_pos (by omega)]
    exact congrArg some (Nat.add_sub_cancel d 0x30)
  · rw [if_neg hdigit, if_neg (by omega), if_pos (by omega)]
    exact congrArg some (by omega)

theorem numChars_zero : numChars base capital 0 = [] := by simp [numChars, numDigits]

/-- The characters of a number are those of the quotient, and the one of the remainder. -/
theorem numChars_of_ne_zero (hbase : 2 ≤ base) (hnum : num ≠ 0) :
    numChars base capital num =
      numChars base capital (num.tdiv base) ++ [digitChar capital (num.tmod base)] := by
  rw [numChars, numDigits_of_ne hbase hnum, List.map_cons, List.reverse_cons]
  rfl

theorem numChars_of_ne (hbase : 2 ≤ base) (hn : n ≠ 0) :
    numChars base capital n =
      numChars base capital (n / base : ℕ) ++ [digitChar capital (n % base : ℕ)] := by
  rw [numChars_of_ne_zero hbase (by omega), ← Int.ofNat_tmod, ← Int.ofNat_tdiv]

/-- The characters of a number have its value. -/
theorem read_numChars (hbase : 2 ≤ base) (hbase' : base ≤ 36) (n : ℕ) :
    (asciiDigits base capital).read (numChars base capital n) = some n := by
  induction n using Nat.strong_induction_on with
  | _ n ih =>
    by_cases hn : n = 0
    · rw [hn, Nat.cast_zero, numChars_zero]
      rfl
    · have hlast : (asciiDigits base capital).value (digitChar capital (n % base : ℕ)) =
          some (n % base) := asciiValue_digitChar (Nat.mod_lt n (by omega)) hbase'
      rw [numChars_of_ne hbase hn, Digits.read_concat,
        ih (n / base) (Nat.div_lt_self (by omega) hbase), Option.bind_some, hlast, Option.map_some,
        Nat.mul_comm, Nat.div_add_mod]

/-- The first character of a number is not a zero. -/
theorem numChars_lead (hbase : 2 ≤ base) (hbase' : base ≤ 36) (n : ℕ) :
    ∀ c ∈ (numChars base capital n).head?, (asciiDigits base capital).value c ≠ some 0 := by
  induction n using Nat.strong_induction_on with
  | _ n ih =>
    intro c hc
    by_cases hn : n = 0
    · rw [hn, Nat.cast_zero, numChars_zero] at hc
      cases hc
    · rw [numChars_of_ne hbase hn, List.head?_append] at hc
      by_cases hquot : n / base = 0
      · rw [hquot, Nat.cast_zero, numChars_zero] at hc
        obtain rfl : digitChar capital (n % base : ℕ) = c := Option.some.inj hc
        have hlt : n < base := (Nat.div_eq_zero_iff_lt (by omega)).mp hquot
        rw [Nat.mod_eq_of_lt hlt]
        have hvalue : (asciiDigits base capital).value (digitChar capital n) = some n :=
          asciiValue_digitChar hlt hbase'
        rw [hvalue, ne_eq, Option.some.injEq]
        exact hn
      · refine ih (n / base) (Nat.div_lt_self (by omega) hbase) c ?_
        have hne : numChars base capital (n / base : ℕ) ≠ [] := by
          rw [numChars_of_ne hbase hquot]
          exact List.append_ne_nil_of_right_ne_nil _ (List.cons_ne_nil _ _)
        cases hhead : (numChars base capital (n / base : ℕ)).head? with
        | none => exact absurd (List.head?_eq_none_iff.mp hhead) hne
        | some a => rwa [hhead] at hc

/-- **The string of `ltoa` is a numeral.** -/
theorem isNumeral_ltoaText (hbase : 2 ≤ base) (hbase' : base ≤ 36) (n : ℕ) (capital : ℤ) :
    (asciiDigits base capital).IsNumeral (ltoaText n base capital) n := by
  rw [ltoaText]
  split
  · next hzero =>
    have hvalue : (asciiDigits base capital).value 0x30 = some 0 :=
      asciiValue_digitChar (d := 0) (Nat.zero_lt_of_lt hbase) hbase'
    refine ⟨List.cons_ne_nil _ _, fun c hc _ => Option.some.inj hc ▸ rfl, ?_⟩
    rw [hzero]
    show (asciiDigits base capital).read ([] ++ [0x30]) = some 0
    exact Digits.read_concat_eq_some.mpr ⟨0, 0, rfl, hvalue, Nat.zero_mul base⟩
  · next hne =>
    refine ⟨?_, fun c hc hzero => ?_, read_numChars hbase hbase' n⟩
    · rw [numChars_of_ne hbase hne]
      exact List.append_ne_nil_of_right_ne_nil _ (List.cons_ne_nil _ _)
    · exact absurd hzero (numChars_lead hbase hbase' n c hc)

/-- **`ltoa`** writes the numeral of a number, from the start of the buffer on, and a NUL. -/
theorem ltoa_numeral (b : CharBuf) (n : UInt64) (base : ℕ) (capital : ℤ) (hbase : 2 ≤ base)
    (hbase' : base ≤ 36) : ∃ b' s, b.ltoa n.toNat base capital = some b' ∧ b.Wrote b' s ∧
      (asciiDigits base capital).IsNumeral s n.toNat := by
  obtain ⟨b', hrun, hwrote⟩ := b.ltoa_wrote n.toNat base capital hbase hbase'
  exact ⟨b', _, hrun, hwrote, isNumeral_ltoaText hbase hbase' n.toNat capital⟩

/-- The number 255 with small letters. -/
theorem ltoa_numeral_255 : ∃ b' s, CharBuf.ltoa ⟨[], []⟩ 255 16 0 = some b' ∧
    CharBuf.Wrote ⟨[], []⟩ b' s ∧ (asciiDigits 16 0).IsNumeral s 255 :=
  ltoa_numeral ⟨[], []⟩ 255 16 0 (by decide) (by decide)

/-! ### The string of `itoa` in base 10 -/

/-- There are no letters in base 10. -/
theorem asciiDigits_ten (capital : ℤ) : asciiDigits 10 capital = asciiDigits 10 0 := by
  ext c d
  show asciiValue 10 capital c = some d ↔ asciiValue 10 0 c = some d
  have hletter : ∀ a : ℕ, ¬ (a ≤ c.toNat ∧ c.toNat < a + 26 ∧ c.toNat - a + 10 < 10) := by omega
  rw [asciiValue, asciiValue, if_neg (hletter _), if_neg (hletter _)]

/-- The string of all numbers but the least is that of the magnitude, with a sign. -/
theorem itoaText_ten (hmin : -2 ^ 31 < num) (hmax : num < 2 ^ 31) :
    itoaText num 10 capital =
      (if num < 0 then [0x2d] else []) ++ ltoaText num.natAbs 10 capital := by
  by_cases hzero : num = 0
  · subst hzero
    rfl
  rw [itoaText, ltoaText, if_neg hzero, if_neg (Int.natAbs_ne_zero.mpr hzero)]
  by_cases hneg : num < 0
  · rw [if_pos ⟨hneg, rfl⟩, if_pos hneg, if_pos hneg, asInt_of_lt (by omega) (by omega),
      show -num = num.natAbs by omega]
  · rw [if_neg (fun h => hneg h.1), if_neg hneg, if_neg hneg, show (num.natAbs : ℤ) = num by omega]

/-- **The string of `itoa`** says what the number is, unless it is the least. -/
theorem isInteger_itoaText (hmin : -2 ^ 31 < num) (hmax : num < 2 ^ 31) (capital : ℤ) :
    IsInteger (itoaText num 10 capital) num := by
  have hnumeral : (asciiDigits 10 capital).IsNumeral (ltoaText num.natAbs 10 capital) num.natAbs :=
    isNumeral_ltoaText (by decide) (by decide) num.natAbs capital
  rw [asciiDigits_ten] at hnumeral
  rw [itoaText_ten hmin hmax]
  split
  · next hneg =>
    have hinteger := IsInteger.neg (by omega) hnumeral
    rwa [show -(num.natAbs : ℤ) = num by omega] at hinteger
  · next hneg =>
    have hinteger := IsInteger.nonneg hnumeral
    rwa [show (num.natAbs : ℤ) = num by omega] at hinteger

/-- An integer is written in one way. -/
theorem IsInteger.unique (h : IsInteger s num) (h' : IsInteger s' num) : s = s' := by
  generalize hz : num = z at h'
  cases h with
  | nonneg h =>
    cases h' with
    | nonneg h' => exact h.unique (Int.ofNat.inj hz ▸ h')
    | neg hn' h' => omega
  | neg hn h =>
    cases h' with
    | nonneg h' => omega
    | neg hn' h' => exact congrArg _ (h.unique (Int.ofNat.inj (Int.neg_inj.mp hz) ▸ h'))

/-- The last remainder of the least number is not a digit. -/
theorem not_isInteger_itoaText (capital z : ℤ) :
    ¬ IsInteger (itoaText (-2 ^ 31) 10 capital) z := by
  have htext : itoaText (-2 ^ 31) 10 capital =
      0x2d :: (numChars 10 capital ((-2 ^ 31 : ℤ).tdiv 10) ++ [digitChar capital (-8)]) := by
    rw [itoaText, if_neg (by decide), if_pos (by decide), if_pos (by decide),
      show asInt (-(-2 ^ 31)) = -2 ^ 31 by decide,
      numChars_of_ne_zero (by decide) (by decide)]
    rfl
  have hminus : (asciiDigits 10 0).value 0x2d = none := by decide
  have hlast : (asciiDigits 10 0).value (digitChar capital (-8)) = none := rfl
  intro h
  generalize itoaText (-2 ^ 31) 10 capital = text at h htext
  cases h with
  | nonneg h =>
    obtain ⟨d, hd⟩ := Digits.value_of_mem h.read_eq (htext ▸ List.mem_cons_self)
    rw [hminus] at hd
    cases hd
  | neg hn h =>
    obtain rfl := List.tail_eq_of_cons_eq htext
    obtain ⟨d, hd⟩ := Digits.value_of_mem h.read_eq List.mem_concat_self
    rw [hlast] at hd
    cases hd

/-- **`itoa`** in base 10 writes what the number is just when it is not the least. -/
theorem itoa_integer_iff (b : CharBuf) (num : Int32) (capital : ℤ) :
    (∃ b' s, b.itoa num.toInt 10 capital = some b' ∧ b.Wrote b' s ∧ IsInteger s num.toInt) ↔
      num.toInt ≠ -2 ^ 31 := by
  have hmin := num.le_toInt
  have hmax := num.toInt_lt
  obtain ⟨b', hrun, hwrote⟩ := b.itoa_wrote num.toInt 10 capital (by decide) (by decide)
  constructor
  · rintro ⟨b₁, s, hrun', hwrote', hinteger⟩ hleast
    obtain rfl := Option.some.inj (hrun.symm.trans hrun')
    obtain rfl := hwrote.str.unique hwrote'.str
    rw [hleast] at hinteger
    exact not_isInteger_itoaText capital _ hinteger
  · intro hne
    exact ⟨b', _, hrun, hwrote, isInteger_itoaText (by omega) hmax capital⟩

/-- The least number. -/
theorem not_itoa_integer : ¬ ∀ (b : CharBuf) (num : Int32) (capital : ℤ),
    ∃ b' s, b.itoa num.toInt 10 capital = some b' ∧ b.Wrote b' s ∧ IsInteger s num.toInt := by
  intro h
  obtain ⟨b', s, hrun, hwrote, hinteger⟩ := h ⟨[], []⟩ (-2147483648) 0
  obtain ⟨b₁, hrun₁, hwrote₁⟩ :=
    CharBuf.itoa_wrote ⟨[], []⟩ (-2147483648 : Int32).toInt 10 0 (by decide) (by decide)
  obtain rfl := Option.some.inj (hrun.symm.trans hrun₁)
  obtain rfl := hwrote.str.unique hwrote₁.str
  exact not_isInteger_itoaText 0 _ hinteger

end GoofyOs
