import GoofyOs.Numerals
import GoofyOs.Vsprintf

/-!
# Field widths

`parse_width` adds ten times the width and a digit to the width itself, so that the digits are read
in base 11. A width of one digit is what it says. The width 10 is read as 11, which can be seen
except for numbers that have eleven characters anyway. All other widths are too large, or wrap
around, and never come out right.

## Main definitions

* `misread` — a number, with its digits read in base 11
* `FillsWidth` — `%d` with a width writes spaces and the number

## Main results

* `parseWidth_eq` — what `parse_width` makes of a width
* `fillsWidth_iff` — when the width comes out right
-/

namespace GoofyOs

/-- The number that the decimal digits are in base 11. -/
def misread (n : ℕ) : ℕ := Nat.ofDigits 11 (Nat.digits 10 n)

/-- The conversion `%d` with the digits of a width, at any place of a format: it takes the digits,
the letter and an `int`, and writes spaces and the decimal form of the `int`, as many characters as
the width says, or as there are. Then the loop goes on behind the letter. -/
def FillsWidth (width : List UInt8) (wd : ℕ) (n : Int32) : Prop :=
  ∀ (fmt : List UInt8) (args : List VaArg) (w rest : List UInt8) (st : List ℕ) (nb : CharBuf),
    ∃ k text nb', IsInteger text n.toInt ∧ k + text.length = max wd text.length ∧
      vsprintfLoop (0x25 :: (width ++ 0x64 :: fmt)) (.int n :: args)
          ⟨w.length, ⟨w ++ rest, st⟩, nb⟩ =
        (Vsprintf.puts (List.replicate k 0x20 ++ text) ⟨w.length, ⟨w ++ rest, st⟩, nb'⟩).bind
          (vsprintfLoop fmt args)

variable {n d v wd k : ℕ} {c : UInt8} {width fmt : List UInt8}

/-! ### Digits in base 11 -/

@[simp] theorem misread_zero : misread 0 = 0 := rfl

/-- One more digit. -/
theorem misread_step (v : ℕ) (hd : d < 10) : misread (v * 10 + d) = misread v * 11 + d := by
  rw [Nat.add_comm, Nat.mul_comm v]
  by_cases hzero : d ≠ 0 ∨ v ≠ 0
  · rw [misread, Nat.digits_add 10 (by decide) d v hd hzero, Nat.ofDigits_cons, misread]
    ring
  · obtain ⟨rfl, rfl⟩ : d = 0 ∧ v = 0 := by omega
    rfl

/-- The quotient and the last digit. -/
theorem misread_div_mod (n : ℕ) : misread n = misread (n / 10) * 11 + n % 10 := by
  have hstep := misread_step (n / 10) (Nat.mod_lt n (show 0 < 10 by decide))
  rwa [show n / 10 * 10 + n % 10 = n by omega] at hstep

/-- The digits in front of the last one make the number larger. -/
theorem add_div_le_misread (n : ℕ) : n + n / 10 ≤ misread n := by
  induction n using Nat.strong_induction_on with
  | _ n ih =>
    by_cases hn : n = 0
    · rw [hn, misread_zero]
    · have hquot := ih (n / 10) (by omega)
      rw [misread_div_mod]
      omega

theorem misread_of_lt (h : n < 10) : misread n = n := by
  rw [misread_div_mod, Nat.div_eq_of_lt h, Nat.mod_eq_of_lt h, misread_zero, Nat.zero_mul,
    Nat.zero_add]

/-- How much larger, for a number of digits. -/
theorem misread_le (h : n < 10 ^ (k + 1)) : 10 ^ k * misread n ≤ 11 ^ k * n := by
  induction k generalizing n with
  | zero =>
    rw [misread_of_lt h]
    simp
  | succ k ih =>
    have hquot : n / 10 < 10 ^ (k + 1) := by
      rw [Nat.div_lt_iff_lt_mul (by decide), ← Nat.pow_succ]
      exact h
    have hdigit : 10 ^ (k + 1) * (n % 10) ≤ 11 ^ (k + 1) * (n % 10) :=
      Nat.mul_le_mul_right _ (Nat.pow_le_pow_left (by decide) _)
    calc 10 ^ (k + 1) * misread n
        = 110 * (10 ^ k * misread (n / 10)) + 10 ^ (k + 1) * (n % 10) := by
          rw [misread_div_mod n]
          ring
      _ ≤ 110 * (11 ^ k * (n / 10)) + 11 ^ (k + 1) * (n % 10) :=
          Nat.add_le_add (Nat.mul_le_mul_left _ (ih hquot)) hdigit
      _ = 11 ^ (k + 1) * (n / 10 * 10 + n % 10) := by ring
      _ = 11 ^ (k + 1) * n := by rw [show n / 10 * 10 + n % 10 = n by omega]

/-! ### `parse_width` -/

/-- A digit of base 10 is what the loop of `parse_width` goes on for. -/
theorem charVal_of_value (h : (asciiDigits 10 0).value c = some d) : charVal c = d + 0x30 := by
  have hvalue : asciiValue 10 0 c = some d := h
  rw [asciiValue] at hvalue
  rw [charVal, BitVec.toInt_eq_toNat_bmod, UInt8.toNat_toBitVec, Int.bmod_def]
  split_ifs at hvalue with hdigit hletter
  · have hd := Option.some.inj hvalue
    omega
  · have hten : letterTen 0 = 0x61 := rfl
    omega

/-- The width after one more digit. -/
theorem asInt_misread_step (v : ℕ) (hd : d < 10) :
    asInt (asInt (misread v) + (asInt (misread v) * 10 + d)) = asInt (misread (v * 10 + d)) := by
  rw [misread_step v hd, show asInt (misread v) + (asInt (misread v) * 10 + d) =
    asInt (misread v) * 11 + d by ring, ← asInt_asInt_add, asInt_asInt_mul, asInt_asInt_add]
  push_cast
  rfl

/-- **The loop of `parse_width`** goes over all digits. -/
theorem parseWidthLoop_eq (hc : ¬ (0x30 ≤ charVal c ∧ charVal c ≤ 0x39))
    (h : width.foldlM (fun v c => ((asciiDigits 10 0).value c).map (v * 10 + ·)) v = some wd) :
    parseWidthLoop (width ++ c :: fmt) (asInt (misread v)) k =
      some (asInt (misread wd), k + width.length) := by
  induction width generalizing v k with
  | nil =>
    obtain rfl := Option.some.inj h
    rw [List.nil_append, parseWidthLoop, if_neg hc]
    rfl
  | cons x width ih =>
    rw [List.foldlM_cons] at h
    obtain ⟨v', hstep, hrest⟩ := Option.bind_eq_some_iff.mp h
    obtain ⟨d, hd, rfl⟩ := Option.map_eq_some_iff.mp hstep
    have hlt := (asciiDigits 10 0).value_lt hd
    have hval := charVal_of_value hd
    rw [List.cons_append, parseWidthLoop, if_pos (by omega), hval, Int.add_sub_cancel,
      asInt_misread_step v hlt, ih hrest, List.length_cons, Nat.add_right_comm, Nat.add_assoc]

/-- **`parse_width`** reads the digits of base 10 in base 11. -/
theorem parseWidth_eq (hc : ¬ (0x30 ≤ charVal c ∧ charVal c ≤ 0x39))
    (h : (asciiDigits 10 0).read width = some wd) :
    parseWidth (width ++ c :: fmt) = some (asInt (misread wd), width.length) := by
  have hloop : parseWidthLoop (width ++ c :: fmt) (asInt (misread 0)) 0 = _ :=
    parseWidthLoop_eq hc h
  rwa [misread_zero, Nat.zero_add] at hloop

/-! ### The conversion -/

/-- **`%d` with a width** writes the field for the width that was read. -/
theorem vsprintfLoop_width (h : (asciiDigits 10 0).read width = some wd) (n : Int32)
    (fmt : List UInt8) (args : List VaArg) (s : Vsprintf) :
    ∃ nb', vsprintfLoop (0x25 :: (width ++ 0x64 :: fmt)) (.int n :: args) s =
      (Vsprintf.puts (Field.dec (asInt (misread wd)) n).text { s with numbuf := nb' }).bind
        (vsprintfLoop fmt args) := by
  have hread : Field.read 0x64 (asInt (misread wd)) (.int n :: args) =
      some (.dec (asInt (misread wd)) n, args) := rfl
  obtain ⟨nb', hconv, -⟩ := Vsprintf.conversion_eq hread s
  refine ⟨nb', ?_⟩
  rw [vsprintfLoop_percent, parseWidth_eq (by decide) h, Option.bind_some, List.drop_left]
  dsimp only
  rw [hconv, Option.bind_map]
  rfl

/-- The decimal form of an `int` has eleven characters at most, and that many for the numbers up to
`-10 ^ 9`. -/
theorem length_itoaText_ten (n : Int32) :
    1 ≤ (itoaText n.toInt 10 0).length ∧ (itoaText n.toInt 10 0).length ≤ 11 ∧
      (11 ≤ (itoaText n.toInt 10 0).length ↔ n.toInt ≤ -10 ^ 9) := by
  have hmin := n.le_toInt
  have hmax := n.toInt_lt
  have hlog : Nat.log 10 n.toInt.natAbs < 10 :=
    Nat.log_lt_of_lt_pow' (by decide) (show n.toInt.natAbs < 10 ^ 10 by omega)
  have hnine : 9 ≤ Nat.log 10 n.toInt.natAbs ↔ 10 ^ 9 ≤ n.toInt.natAbs := by
    refine ⟨fun h => ?_, fun h => Nat.le_log_of_pow_le (by decide) h⟩
    by_contra hlt
    have hlog := Nat.log_lt_of_lt_pow' (show 9 ≠ 0 by decide) (Nat.not_le.mp hlt)
    omega
  rw [length_itoaText_int32 n (by decide) 0]
  simp only [and_true]
  split <;> omega

/-- The number of spaces for the width that is read is that for the width just when both are the
same, or the number is as long as both. -/
theorem pad_misread_iff {len : ℕ} (hwd : wd < 2 ^ 31) (hlen : 1 ≤ len) (hlen' : len ≤ 11) :
    (asInt (asInt (misread wd) - len)).toNat + len = max wd len ↔
      wd < 10 ∨ wd = 10 ∧ 11 ≤ len := by
  have hmore := add_div_le_misread wd
  have hless : 10 ^ 9 * misread wd ≤ 11 ^ 9 * wd := misread_le (by omega)
  have hpad : asInt (asInt (misread wd) - len) = asInt (misread wd - len) := by
    rw [sub_eq_add_neg, asInt_asInt_add, ← sub_eq_add_neg]
  rw [hpad]
  constructor
  · intro heq
    by_contra hnot
    rcases Nat.lt_or_ge (misread wd) (2 ^ 31) with hsmall | hlarge
    · rw [asInt_of_lt (by omega) (by omega)] at heq
      omega
    -- the width wraps around, and is less than `2 ^ 32` more than it should be
    · rw [asInt, Int.bmod_def] at heq
      omega
  · rintro (hone | ⟨rfl, heleven⟩)
    · rw [misread_of_lt hone, asInt_of_lt (by omega) (by omega)]
      omega
    · rw [show misread 10 = 11 from rfl, asInt_of_lt (by omega) (by omega)]
      omega

theorem dec_text (width : ℤ) (n : Int32) : (Field.dec width n).text =
    spaces (asInt (width - (itoaText n.toInt 10 0).length)) ++ itoaText n.toInt 10 0 := rfl

/-- What was written when a format ends behind a conversion. -/
theorem str_puts (cs : List UInt8) (nb : CharBuf) :
    ((Vsprintf.puts cs ⟨0, ⟨[], []⟩, nb⟩).bind (vsprintfLoop [0] [])).map Vsprintf.str =
      some cs.length := by
  have hputs : Vsprintf.puts cs ⟨0, ⟨[], []⟩, nb⟩ = some _ := Vsprintf.puts_eq cs [] [] [] nb
  rw [hputs, Option.bind_some, vsprintfLoop, if_pos rfl]
  rfl

/-- How many characters are written says how wide the field is. -/
theorem FillsWidth.pad_eq {n : Int32} (h : FillsWidth width wd n)
    (hwidth : (asciiDigits 10 0).read width = some wd) (hn : n.toInt ≠ -2 ^ 31) :
    (asInt (asInt (misread wd) - (itoaText n.toInt 10 0).length)).toNat +
      (itoaText n.toInt 10 0).length = max wd (itoaText n.toInt 10 0).length := by
  have hmin := n.le_toInt
  obtain ⟨k, text, nb', htext, hk, hloop⟩ := h [0] [] [] [] [] ⟨[], []⟩
  obtain ⟨nb₁, hloop₁⟩ := vsprintfLoop_width hwidth n [0] [] ⟨0, ⟨[], []⟩, ⟨[], []⟩⟩
  obtain rfl := htext.unique (isInteger_itoaText (by omega) n.toInt_lt 0)
  have heq := congrArg (Option.map Vsprintf.str) (hloop₁.symm.trans hloop)
  have hlen := Option.some.inj ((str_puts _ nb₁).symm.trans (heq.trans (str_puts _ nb')))
  rw [dec_text, List.length_append, Field.length_spaces, List.length_append,
    List.length_replicate] at hlen
  rw [hlen, hk]

/-- **The width comes out right** just when it has one digit, apart from zeros in front of it, or
it is 10 and the number has eleven characters. -/
theorem fillsWidth_iff (width : List UInt8) (wd : ℕ) (n : Int32)
    (hwidth : (asciiDigits 10 0).read width = some wd) (hwd : wd < 2 ^ 31)
    (hn : n.toInt ≠ -2 ^ 31) :
    FillsWidth width wd n ↔ wd < 10 ∨ wd = 10 ∧ n.toInt ≤ -10 ^ 9 := by
  have hmin := n.le_toInt
  obtain ⟨hone, heleven, hlong⟩ := length_itoaText_ten n
  rw [← hlong, ← pad_misread_iff hwd hone heleven]
  constructor
  · exact fun h => h.pad_eq hwidth hn
  · intro h fmt args w rest st nb
    obtain ⟨nb', hloop⟩ := vsprintfLoop_width hwidth n fmt args ⟨w.length, ⟨w ++ rest, st⟩, nb⟩
    exact ⟨_, _, nb', isInteger_itoaText (by omega) n.toInt_lt 0, h, hloop⟩

/-- The width 8. -/
theorem fillsWidth_iff_8 : FillsWidth [0x38] 8 (-5) :=
  (fillsWidth_iff [0x38] 8 (-5) (by decide) (by decide) (by decide)).mpr (by decide)

/-- The width 10 and the number 0: there are ten spaces. -/
theorem not_fillsWidth : ¬ ∀ (width : List UInt8) (wd : ℕ) (n : Int32),
    (asciiDigits 10 0).read width = some wd → wd < 2 ^ 31 → n.toInt ≠ -2 ^ 31 →
      FillsWidth width wd n := by
  intro h
  have hfills := h [0x31, 0x30] 10 0 (by decide) (by decide) (by decide)
  exact absurd (hfills.pad_eq (by decide) (by decide)) (by decide)

end GoofyOs
