import GoofyOs.CInt
import GoofyOs.Libk
import Mathlib.Data.List.Induction
import Mathlib.Data.Nat.Digits.Lemmas

/-!
# Numbers as characters

`itoa` and `ltoa` divide a number by the base until nothing is left, and store one character for
each remainder. The digits come out last one first, so they are turned around at the end.

The least `int` has no negative. `itoa` takes its remainders as they are, which are negative then,
and the characters are not digits. There are as many of them as there should be.

## Main definitions

* `CharBuf` — an array of characters, with the indices that were stored to
* `CharBuf.reverse`, `CharBuf.itoa`, `CharBuf.ltoa` — the code
* `itoaText`, `ltoaText` — the strings that they leave
* `CharBuf.Wrote b b' text` — a string was written, from the start of an array on

## Main results

* `CharBuf.itoa_wrote`, `CharBuf.ltoa_wrote` — what they do
* `length_itoaText`, `length_ltoaText` — how long the strings are
-/

namespace GoofyOs

/-- An array of `char`s: what is in it from the start on, as far as it was stored to, and the
indices that were stored to. It is as long as it has to be. -/
structure CharBuf where
  chars : List UInt8
  stores : List ℕ

/-- The character of a remainder. -/
def digitChar (capital rem : ℤ) : UInt8 :=
  .ofInt (if rem > 9 then rem - 10 + (if capital ≠ 0 then 0x41 else 0x61) else rem + 0x30)

namespace CharBuf

variable (b : CharBuf)

/-- `str[i] = c`. -/
def store (i : ℕ) (c : UInt8) : Option CharBuf :=
  if i ≤ b.chars.length then
    some ⟨b.chars.take i ++ c :: b.chars.drop (i + 1), b.stores ++ [i]⟩
  else none

/-- The loop of `reverse`. -/
def reverseLoop (start stop : ℕ) (b : CharBuf) : Option CharBuf :=
  if start < stop then do
    let temp ← b.chars[start]?
    let c ← b.chars[stop]?
    let b ← b.store start c
    let b ← b.store stop temp
    reverseLoop (start + 1) (stop - 1) b
  else some b
termination_by stop - start

/-- `reverse`. -/
def reverse (length : ℕ) : Option CharBuf := b.reverseLoop 0 (length - 1)

/-- The loop of `itoa` and `ltoa`: the number of characters, and the array. In base zero it divides
by zero, and in base one it does not end. -/
def numLoop (base : ℕ) (capital num : ℤ) (i : ℕ) (b : CharBuf) : Option (ℕ × CharBuf) :=
  if num = 0 then some (i, b)
  else if base < 2 then none
  else do
    let b ← b.store i (digitChar capital (num.tmod base))
    numLoop base capital (num.tdiv base) (i + 1) b
termination_by num.natAbs
decreasing_by
  rw [Int.natAbs_tdiv, Int.natAbs_natCast]
  exact Nat.div_lt_self (by omega) (by omega)

/-- `itoa`, without its result. An `int` is negated as the machine does it. -/
def itoa (num : ℤ) (base : ℕ) (capital : ℤ) : Option CharBuf :=
  if num = 0 then do
    let b ← b.store 0 0x30
    b.store 1 0
  else do
    let isNegative := num < 0 ∧ base = 10
    let num := if num < 0 then asInt (-num) else num
    let (i, b) ← numLoop base capital num 0 b
    let (i, b) ← if isNegative then (b.store i 0x2d).map (i + 1, ·) else some (i, b)
    let b ← b.reverse i
    b.store i 0

/-- `ltoa`, without its result. -/
def ltoa (num base : ℕ) (capital : ℤ) : Option CharBuf :=
  if num = 0 then do
    let b ← b.store 0 0x30
    b.store 1 0
  else do
    let (i, b) ← numLoop base capital num 0 b
    let b ← b.reverse i
    b.store i 0

/-- A string was written from the start of an array on: every index up to the NUL was stored to,
and no other. -/
structure Wrote (b b' : CharBuf) (text : List UInt8) : Prop where
  str : CStr b'.chars text
  stores : ∀ j, j ∈ b'.stores ↔ j ∈ b.stores ∨ j ≤ text.length

end CharBuf

/-- The remainders of a number, the last digit first. They have the sign of the number. -/
def numDigits (base : ℕ) (num : ℤ) : List ℤ :=
  (base.digits num.natAbs).map fun d : ℕ => num.sign * (d : ℤ)

/-- The characters of the remainders, the first digit first. -/
def numChars (base : ℕ) (capital num : ℤ) : List UInt8 :=
  ((numDigits base num).map (digitChar capital)).reverse

/-- The string of `itoa`. -/
def itoaText (num : ℤ) (base : ℕ) (capital : ℤ) : List UInt8 :=
  if num = 0 then [0x30]
  else (if num < 0 ∧ base = 10 then [0x2d] else []) ++
    numChars base capital (if num < 0 then asInt (-num) else num)

/-- The string of `ltoa`. -/
def ltoaText (num base : ℕ) (capital : ℤ) : List UInt8 :=
  if num = 0 then [0x30] else numChars base capital num

variable {base n i : ℕ} {capital num rem : ℤ} {c : UInt8} {b b' : CharBuf}
  {w rest text mid post : List UInt8} {st : List ℕ}

/-! ### Digits -/

/-- The least `int` is its own negative. -/
theorem natAbs_asInt_neg (hmin : -2 ^ 31 ≤ num) (hmax : num < 2 ^ 31) :
    (asInt (-num)).natAbs = num.natAbs := by
  rw [asInt, Int.bmod_def]
  omega

/-- The remainders of a number are the first one and those of the quotient. -/
theorem numDigits_of_ne (hbase : 2 ≤ base) (hnum : num ≠ 0) :
    numDigits base num = num.tmod base :: numDigits base (num.tdiv base) := by
  have hquot : (num.tdiv base).natAbs = num.natAbs / base := by
    rw [Int.natAbs_tdiv, Int.natAbs_natCast]
    rfl
  have hrem : num.sign * (num.natAbs % base : ℕ) = num.tmod base := by
    rcases Int.natAbs_eq num with heq | heq
    · rw [Int.sign_eq_one_of_pos (by omega), one_mul]
      conv_rhs => rw [heq]
      exact (Int.ofNat_tmod _ _).symm
    · rw [Int.sign_eq_neg_one_of_neg (by omega), neg_one_mul]
      conv_rhs => rw [heq, Int.neg_tmod]
      exact congrArg Neg.neg (Int.ofNat_tmod _ _).symm
  have hsign : num.natAbs / base ≠ 0 → (num.tdiv base).sign = num.sign := by
    intro hne
    rw [Int.sign_tdiv, if_neg]
    · rw [Int.sign_natCast_of_ne_zero (by omega), mul_one]
    · rw [Int.natAbs_natCast]
      exact fun hlt => hne (Nat.div_eq_of_lt hlt)
  rw [numDigits, numDigits, Nat.digits_def' hbase (by omega), List.map_cons, hrem, hquot]
  by_cases hzero : num.natAbs / base = 0
  · rw [hzero, Nat.digits_zero, List.map_nil, List.map_nil]
  · rw [hsign hzero]

/-- A remainder of a base up to 36 has a character. -/
theorem digitChar_ne_zero (hrem : rem.natAbs < 36) : digitChar capital rem ≠ 0 := by
  rw [digitChar]
  generalize hx : (if rem > 9 then rem - 10 + (if capital ≠ 0 then 0x41 else 0x61)
    else rem + 0x30 : ℤ) = x
  have hbounds : 0 < x ∧ x < 128 := by
    split at hx
    · split at hx <;> omega
    · omega
  intro hzero
  have hnat : (UInt8.ofNat (x % 2 ^ 8).toNat).toNat = 0 := congrArg UInt8.toNat hzero
  rw [UInt8.toNat_ofNat'] at hnat
  omega

theorem zero_notMem_numChars (hbase : 2 ≤ base) (hbase' : base ≤ 36) :
    (0 : UInt8) ∉ numChars base capital num := by
  intro hmem
  obtain ⟨rem, hrem, hzero⟩ := List.mem_map.mp (List.mem_reverse.mp hmem)
  obtain ⟨d, hd, rfl⟩ := List.mem_map.mp hrem
  have hlt : d < base := Nat.digits_lt_base hbase hd
  refine digitChar_ne_zero ?_ hzero
  rw [Int.natAbs_mul, Int.natAbs_natCast]
  have hsign : num.sign.natAbs ≤ 1 := by
    rw [Int.natAbs_sign]
    split <;> omega
  exact Nat.lt_of_le_of_lt (Nat.mul_le_mul_right d hsign) (by omega)

theorem length_numChars : (numChars base capital num).length =
    (base.digits num.natAbs).length := by
  rw [numChars, List.length_reverse, List.length_map, numDigits, List.length_map]

/-- The string of `itoa` has a character for each digit, and one for the sign. -/
theorem length_itoaText (hbase : 2 ≤ base) (hmin : -2 ^ 31 ≤ num) (hmax : num < 2 ^ 31) :
    (itoaText num base capital).length =
      Nat.log base num.natAbs + 1 + if num < 0 ∧ base = 10 then 1 else 0 := by
  rw [itoaText]
  split
  · next hzero => simp [hzero]
  · next hne =>
    have habs : (if num < 0 then asInt (-num) else num).natAbs = num.natAbs := by
      split
      · exact natAbs_asInt_neg hmin hmax
      · rfl
    rw [List.length_append, length_numChars, habs,
      Nat.length_digits base num.natAbs hbase (by omega), Nat.add_comm]
    split <;> rfl

/-- The string of `ltoa` has a character for each digit. -/
theorem length_ltoaText (n : ℕ) (capital : ℤ) (hbase : 2 ≤ base) :
    (ltoaText n base capital).length = Nat.log base n + 1 := by
  rw [ltoaText]
  split
  · next hzero => simp [hzero]
  · next hne =>
    rw [length_numChars, Int.natAbs_natCast, Nat.length_digits base n hbase hne]

namespace CharBuf

/-! ### The loops -/

/-- Storing behind what was written. -/
theorem store_eq : (CharBuf.mk (w ++ rest) st).store w.length c =
    some ⟨w ++ c :: rest.drop 1, st ++ [w.length]⟩ := by
  rw [store, if_pos (by rw [List.length_append]; omega), List.take_left]
  simp only [List.drop_append, Nat.add_sub_cancel_left]
  rw [List.drop_eq_nil_of_le (Nat.le_succ _), List.nil_append]

/-- **`reverse`**, of the part of an array that the loop has not reached. -/
theorem reverseLoop_eq (w mid post : List UInt8) (st : List ℕ) :
    ∃ more, (∀ j ∈ more, j < w.length + mid.length) ∧
      (CharBuf.mk (w ++ mid ++ post) st).reverseLoop w.length (w.length + mid.length - 1) =
        some ⟨w ++ mid.reverse ++ post, st ++ more⟩ := by
  induction mid using List.bidirectionalRec generalizing w post st with
  | nil =>
    refine ⟨[], fun j hj => absurd hj List.not_mem_nil, ?_⟩
    rw [reverseLoop, if_neg (by rw [List.length_nil]; omega)]
    simp
  | singleton a =>
    refine ⟨[], fun j hj => absurd hj List.not_mem_nil, ?_⟩
    rw [reverseLoop, if_neg (by rw [List.length_singleton]; omega)]
    simp
  | cons_append a mid z ih =>
    obtain ⟨more, hmore, hrest⟩ := ih (w ++ [z]) (a :: post) (st ++ [w.length] ++
      [(w ++ z :: mid).length])
    have hstop : w.length + (a :: (mid ++ [z])).length - 1 = (w ++ z :: mid).length := by
      simp only [List.length_cons, List.length_append, List.length_nil]
      omega
    have hchars : w ++ a :: (mid ++ [z]) ++ post = w ++ a :: (mid ++ z :: post) := by simp
    have hfirst : (w ++ a :: (mid ++ z :: post))[w.length]? = some a := by
      rw [List.getElem?_append_right le_rfl, Nat.sub_self]
      rfl
    have hlast : (w ++ a :: (mid ++ z :: post))[(w ++ z :: mid).length]? = some z := by
      have hsplit : w ++ a :: (mid ++ z :: post) = (w ++ a :: mid) ++ z :: post := by simp
      have hlen : (w ++ z :: mid).length = (w ++ a :: mid).length := by simp
      rw [hsplit, hlen, List.getElem?_append_right le_rfl, Nat.sub_self]
      rfl
    have hswap : (CharBuf.mk (w ++ z :: (mid ++ z :: post)) (st ++ [w.length])).store
        (w ++ z :: mid).length a =
          some ⟨w ++ [z] ++ mid ++ a :: post, st ++ [w.length] ++ [(w ++ z :: mid).length]⟩ := by
      have hsplit : w ++ z :: (mid ++ z :: post) = (w ++ z :: mid) ++ z :: post := by simp
      rw [hsplit, store_eq]
      simp
    refine ⟨w.length :: (w ++ z :: mid).length :: more, ?_, ?_⟩
    · intro j hj
      simp only [List.mem_cons, List.length_append, List.length_cons, List.length_nil] at hj hmore ⊢
      rcases hj with rfl | rfl | hj
      · omega
      · omega
      · have hlt := hmore j hj
        omega
    · rw [reverseLoop, hstop, if_pos (by simp only [List.length_append, List.length_cons]; omega),
        hchars]
      simp only [hfirst, hlast, Option.bind_eq_bind, Option.bind_some, store_eq,
        List.drop_succ_cons, List.drop_zero, hswap]
      have hnext : (w ++ z :: mid).length - 1 = (w ++ [z]).length + mid.length - 1 := by
        simp only [List.length_append, List.length_cons, List.length_nil]
        omega
      have hstart : w.length + 1 = (w ++ [z]).length := by simp
      rw [hnext, hstart, hrest]
      simp

/-- **`reverse`** turns around the start of an array. -/
theorem reverse_eq (w post : List UInt8) (st : List ℕ) :
    ∃ more, (∀ j ∈ more, j < w.length) ∧
      (CharBuf.mk (w ++ post) st).reverse w.length = some ⟨w.reverse ++ post, st ++ more⟩ := by
  obtain ⟨more, hmore, hloop⟩ := reverseLoop_eq [] w post st
  rw [List.length_nil, Nat.zero_add] at hmore hloop
  exact ⟨more, hmore, hloop⟩

/-- **The loop of `itoa` and `ltoa`** stores the characters of the remainders. -/
theorem numLoop_eq (hbase : 2 ≤ base) (capital num : ℤ) (w rest : List UInt8) (st : List ℕ) :
    (CharBuf.mk (w ++ rest) st).numLoop base capital num w.length =
      some (w.length + (numDigits base num).length,
        ⟨w ++ (numDigits base num).map (digitChar capital) ++
            rest.drop (numDigits base num).length,
          st ++ List.range' w.length (numDigits base num).length⟩) := by
  induction hk : num.natAbs using Nat.strong_induction_on generalizing num w rest st with
  | _ k ih =>
    rw [numLoop]
    by_cases hnum : num = 0
    · rw [if_pos hnum, hnum]
      simp [numDigits]
    · have hlt : (num.tdiv base).natAbs < k := by
        rw [Int.natAbs_tdiv, Int.natAbs_natCast, ← hk]
        exact Nat.div_lt_self (by omega) (by omega)
      have hrest := ih _ hlt (num.tdiv base) (w ++ [digitChar capital (num.tmod base)])
        (rest.drop 1) (st ++ [w.length]) rfl
      rw [if_neg hnum, if_neg (by omega), store_eq, numDigits_of_ne hbase hnum]
      have hstart : w.length + 1 = (w ++ [digitChar capital (num.tmod base)]).length := by simp
      have hchars : w ++ digitChar capital (num.tmod base) :: rest.drop 1 =
          w ++ [digitChar capital (num.tmod base)] ++ rest.drop 1 := by simp
      rw [Option.bind_eq_bind, Option.bind_some, hstart, hchars, hrest]
      simp [List.range'_succ, Nat.add_comm, Nat.add_left_comm]

/-- The loop from the start of an array on. -/
theorem numLoop_start (hbase : 2 ≤ base) (b : CharBuf) (capital num : ℤ) :
    ∃ rest, b.numLoop base capital num 0 = some ((numChars base capital num).reverse.length,
      ⟨(numChars base capital num).reverse ++ rest,
        b.stores ++ List.range (numChars base capital num).reverse.length⟩) := by
  have hloop := numLoop_eq hbase capital num [] b.chars b.stores
  have hlen : (numDigits base num).length = (numChars base capital num).reverse.length := by
    rw [numChars, List.reverse_reverse, List.length_map]
  rw [hlen, List.length_nil, Nat.zero_add, ← List.range_eq_range', List.nil_append,
    ← List.reverse_reverse ((numDigits base num).map _)] at hloop
  exact ⟨_, hloop⟩

/-! ### `itoa` and `ltoa` -/

/-- The NUL behind the characters. -/
theorem wrote_of_store (b : CharBuf) (rest : List UInt8) (htext : (0 : UInt8) ∉ text)
    (hst : ∀ j, j ∈ st ↔ j ∈ b.stores ∨ j < text.length) :
    ∃ b', (CharBuf.mk (text ++ rest) st).store text.length 0 = some b' ∧ Wrote b b' text := by
  refine ⟨_, store_eq, CStr.of_append htext, fun j => ?_⟩
  rw [List.mem_append, hst, List.mem_singleton, or_assoc, ← Nat.le_iff_lt_or_eq]

/-- The zero of both functions. -/
theorem wrote_zero (b : CharBuf) : ∃ b', (b.store 0 0x30).bind (fun b => b.store 1 0) = some b' ∧
    Wrote b b' [0x30] := by
  obtain ⟨chars, st⟩ := b
  have hfirst : (CharBuf.mk chars st).store 0 0x30 =
      some ⟨[0x30] ++ chars.drop 1, st ++ [0]⟩ := store_eq (w := [])
  rw [hfirst, Option.bind_some]
  refine wrote_of_store _ _ (by decide) fun j => ?_
  rw [List.mem_append, List.mem_singleton]
  exact or_congr_right Nat.lt_one_iff.symm

/-- The digits, the other characters that are stored behind them, and all of it turned around. -/
theorem wrote_reverse (b : CharBuf) (chars : List UInt8) (st : List ℕ) (hw : (0 : UInt8) ∉ w)
    (hst : ∀ j, j ∈ st ↔ j ∈ b.stores ∨ j < w.length) :
    ∃ b', ((CharBuf.mk (w ++ chars) st).reverse w.length).bind (fun b => b.store w.length 0) =
      some b' ∧ Wrote b b' w.reverse := by
  obtain ⟨more, hmore, hreverse⟩ := reverse_eq w chars st
  have hmem : ∀ j, j ∈ st ++ more ↔ j ∈ b.stores ∨ j < w.reverse.length := by
    intro j
    have hlt := hmore j
    rw [List.mem_append, hst, List.length_reverse]
    tauto
  have hwrote := wrote_of_store b chars (mt List.mem_reverse.mp hw) hmem
  rw [List.length_reverse] at hwrote
  rwa [hreverse, Option.bind_some]

/-- **`itoa`** writes the number. -/
theorem itoa_wrote (b : CharBuf) (num : ℤ) (base : ℕ) (capital : ℤ) (hbase : 2 ≤ base)
    (hbase' : base ≤ 36) :
    ∃ b', b.itoa num base capital = some b' ∧ Wrote b b' (itoaText num base capital) := by
  rw [itoa, itoaText]
  by_cases hnum : num = 0
  · rw [if_pos hnum, if_pos hnum]
    exact wrote_zero b
  rw [if_neg hnum, if_neg hnum]
  generalize (if num < 0 then asInt (-num) else num) = mag
  obtain ⟨rest, hloop⟩ := numLoop_start hbase b capital mag
  have hchars : (0 : UInt8) ∉ (numChars base capital mag).reverse :=
    mt List.mem_reverse.mp (zero_notMem_numChars hbase hbase')
  simp only [hloop, Option.bind_eq_bind, Option.bind_some]
  by_cases hneg : num < 0 ∧ base = 10
  · simp only [if_pos hneg, store_eq, Option.map_some, Option.bind_some]
    have hsign : (0 : UInt8) ∉ (numChars base capital mag).reverse ++ [0x2d] :=
      List.not_mem_append hchars (by decide)
    have hwrote := wrote_reverse b (rest.drop 1)
      (b.stores ++ List.range _ ++ [(numChars base capital mag).reverse.length]) hsign
      fun j => by
        rw [List.length_append, List.length_singleton, Nat.lt_succ_iff_lt_or_eq, ← or_assoc,
          List.mem_append, List.mem_append, List.mem_range, List.mem_singleton]
    rw [List.reverse_append, List.reverse_reverse, List.append_assoc,
      List.length_append, List.length_singleton] at hwrote
    exact hwrote
  · simp only [if_neg hneg]
    have hwrote := wrote_reverse b rest (b.stores ++ List.range _) hchars
      fun j => by rw [List.mem_append, List.mem_range]
    rwa [List.reverse_reverse] at hwrote

/-- **`ltoa`** writes the number. -/
theorem ltoa_wrote (b : CharBuf) (n base : ℕ) (capital : ℤ) (hbase : 2 ≤ base)
    (hbase' : base ≤ 36) :
    ∃ b', b.ltoa n base capital = some b' ∧ Wrote b b' (ltoaText n base capital) := by
  rw [ltoa, ltoaText]
  by_cases hn : n = 0
  · rw [if_pos hn, if_pos hn]
    exact wrote_zero b
  rw [if_neg hn, if_neg hn]
  obtain ⟨rest, hloop⟩ := numLoop_start hbase b capital n
  have hchars : (0 : UInt8) ∉ (numChars base capital n).reverse :=
    mt List.mem_reverse.mp (zero_notMem_numChars hbase hbase')
  have hwrote := wrote_reverse b rest (b.stores ++ List.range _) hchars
    fun j => by rw [List.mem_append, List.mem_range]
  rw [List.reverse_reverse] at hwrote
  simpa only [hloop, Option.bind_eq_bind, Option.bind_some] using hwrote

end CharBuf

end GoofyOs
