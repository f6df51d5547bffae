import GoofyOs.Vsprintf

/-!
# The line of `printk`

`printk` formats the time stamp and then its own arguments into an array of 1024 characters on its
stack. Nothing tells `_vsprintf` how large it is: a string of an argument is cut at 1024 characters,
which leaves no room for the time stamp and the NUL, and widths and formats are not limited at all.

The lock around the output is left out.

## Main definitions

* `sprintf`, `printk` — the code
* `stampLength` — the number of characters of the time stamp

## Main results

* `Formats.printk_eq` — what `printk` writes
* `printk_inside_iff` — when its array is large enough
-/

namespace GoofyOs

/-- `sprintf`. -/
def sprintf (buf : ℕ) (out : CharBuf) (fmt : List UInt8) (args : List VaArg) :
    Option (ℕ × Vsprintf) := vsprintf buf out fmt args

/-- The format `[%5d.%7d] ` of the time stamp. -/
def stampFmt : List UInt8 := [0x5b, 0x25, 0x35, 0x64, 0x2e, 0x25, 0x37, 0x64, 0x5d, 0x20, 0]

/-- What `printk` leaves behind: `printf_buf`, what `console_write` gets, and what is written to the
serial port. -/
structure Printk where
  printed : ℕ
  printfBuf : CharBuf
  console : Option (List UInt8)
  serial : List UInt8

/-- The loop over a string, up to its NUL. -/
def stringChars : List UInt8 → Option (List UInt8)
  | [] => none
  | c :: cs => if c = 0 then some [] else (stringChars cs).map (c :: ·)

/-- `printk`, with the two readings of the clock and `fbcon.enabled`. -/
def printk (us us' : UInt64) (enabled : Bool) (fmt : List UInt8) (args : List VaArg) :
    Option Printk := do
  let (_, s) ← sprintf 0 ⟨[], []⟩ stampFmt [.ulong (us / 1000000), .ulong (us' % 1000000)]
  let len ← strlen s.out.chars
  let (printed, s) ← vsprintf len s.out fmt args
  let serial ← stringChars s.out.chars
  some ⟨printed, s.out, if enabled then some s.out.chars else none, serial⟩

/-- The seconds of the time stamp. -/
def stampSeconds (us : UInt64) : Int32 := .ofInt (us / 1000000).toNat

/-- The microseconds of the time stamp. -/
def stampMicros (us : UInt64) : Int32 := .ofInt (us % 1000000).toNat

/-- The fields of the time stamp. -/
def stampFields (us us' : UInt64) : List Field :=
  [.lit 0x5b, .dec 5 (stampSeconds us), .lit 0x2e, .dec 7 (stampMicros us'), .lit 0x5d, .lit 0x20]

/-- The number of characters of the time stamp. -/
def stampLength (us : UInt64) : ℕ :=
  let seconds := (stampSeconds us).toInt
  11 + max 5 (Nat.log 10 seconds.natAbs + 1 + if seconds < 0 then 1 else 0)

theorem formats_stamp (us us' : UInt64) : Formats stampFmt
    [.ulong (us / 1000000), .ulong (us' % 1000000)] (stampFields us us') := by
  refine .lit (by decide) (by decide) ?_
  refine .conv (show parseWidth [0x35, 0x64, 0x2e, 0x25, 0x37, 0x64, 0x5d, 0x20, 0] = some (5, 1)
    by decide) rfl rfl ?_
  refine .lit (by decide) (by decide) ?_
  refine .conv (show parseWidth [0x37, 0x64, 0x5d, 0x20, 0] = some (7, 1) by decide) rfl rfl ?_
  exact .lit (by decide) (by decide) (.lit (by decide) (by decide) (.nul [] []))

/-- The microseconds have at most six digits. -/
theorem log_stampMicros (us : UInt64) : Nat.log 10 (stampMicros us).toInt.natAbs < 6 ∧
    0 ≤ (stampMicros us).toInt := by
  have hmod : (us % 1000000).toNat = us.toNat % 1000000 := UInt64.toNat_mod us 1000000
  have hint : (stampMicros us).toInt = (us.toNat % 1000000 : ℕ) := by
    rw [stampMicros, hmod, Int32.toInt_ofInt_of_le (by omega) (by omega)]
  rw [hint]
  exact ⟨Nat.log_lt_of_lt_pow' (by decide) (by rw [Int.natAbs_natCast]; omega), by omega⟩

theorem length_stamp (us us' : UInt64) :
    (fieldsText (stampFields us us')).length = stampLength us := by
  obtain ⟨hlog, hmicros⟩ := log_stampMicros us'
  have hseconds := (Field.digits_lt_iff (.dec 5 (stampSeconds us))).mpr (by simp) _ rfl
  rw [length_itoaText_int32 _ (by decide)] at hseconds
  simp only [length_fieldsText, stampFields, List.map_cons, List.map_nil, List.sum_cons,
    List.sum_nil, Field.length, stampLength]
  rw [Field.pad_eq_max (by decide) (by decide) (by split at hseconds <;> split <;> omega),
    Field.pad_eq_max (by decide) (by decide) (by split <;> omega), if_neg (Int.not_lt.mpr hmicros)]
  omega

theorem zero_notMem_spaces (n : ℤ) : (0 : UInt8) ∉ spaces n := by
  intro hmem
  exact absurd (List.eq_of_mem_replicate hmem) (by decide)

theorem zero_notMem_dec (width : ℤ) (n : Int32) : (0 : UInt8) ∉ (Field.dec width n).text := by
  obtain ⟨b, -, hwrote⟩ := CharBuf.itoa_wrote ⟨[], []⟩ n.toInt 10 0 (by decide) (by decide)
  exact List.not_mem_append (zero_notMem_spaces _) hwrote.str.zero_notMem

/-- The time stamp is a string. -/
theorem zero_notMem_stamp (us us' : UInt64) :
    (0 : UInt8) ∉ fieldsText (stampFields us us') := by
  rw [fieldsText, List.mem_flatMap]
  rintro ⟨f, hf, hzero⟩
  simp only [stampFields, List.mem_cons, List.not_mem_nil, or_false] at hf
  rcases hf with rfl | rfl | rfl | rfl | rfl | rfl
  · exact absurd hzero (by decide)
  · exact zero_notMem_dec _ _ hzero
  · exact absurd hzero (by decide)
  · exact zero_notMem_dec _ _ hzero
  · exact absurd hzero (by decide)
  · exact absurd hzero (by decide)

/-- The loop over a string stops at the first NUL. -/
theorem stringChars_eq (cs rest : List UInt8) :
    stringChars (cs ++ 0 :: rest) = some (cs.takeWhile (· ≠ 0)) := by
  induction cs with
  | nil => rfl
  | cons c cs ih =>
    rw [List.cons_append, stringChars, ih, List.takeWhile_cons]
    by_cases hc : c = 0 <;> simp [hc]

variable {fmt : List UInt8} {args : List VaArg} {fields : List Field}

/-- **`printk`** writes the time stamp, the text of the fields, and a NUL. -/
theorem Formats.printk_eq (h : Formats fmt args fields) (us us' : UInt64) (enabled : Bool) :
    ∃ r, printk us us' enabled fmt args = some r ∧ r.printed = (fieldsText fields).length ∧
      r.printfBuf.chars = fieldsText (stampFields us us') ++ fieldsText fields ++ [0] ∧
      r.printfBuf.stores = List.range' 0 (stampLength us + 1) ++
        List.range' (stampLength us) ((fieldsText fields).length + 1) ∧
      r.serial = (fieldsText (stampFields us us') ++ fieldsText fields).takeWhile (· ≠ 0) := by
  obtain ⟨s, hstamp, hchars, hstores, -⟩ := (formats_stamp us us').vsprintf_eq [] [] []
  rw [List.drop_nil, List.nil_append] at hchars
  rw [List.nil_append, length_stamp] at hstores
  have hlen : strlen s.out.chars = some (fieldsText (stampFields us us')).length := by
    rw [hchars]
    exact (CStr.of_append (zero_notMem_stamp us us')).strlen_eq
  have hout : s.out = ⟨fieldsText (stampFields us us') ++ [0], s.out.stores⟩ := by
    rw [← hchars]
  obtain ⟨s', hline, hchars', hstores', -⟩ := h.vsprintf_eq (fieldsText (stampFields us us')) [0]
    s.out.stores
  rw [← hout] at hline
  have hdrop : [(0 : UInt8)].drop ((fieldsText fields).length + 1) = [] :=
    List.drop_eq_nil_of_le (Nat.le_add_left _ _)
  rw [hdrop] at hchars'
  rw [hstores, length_stamp] at hstores'
  have hserial : stringChars s'.out.chars =
      some ((fieldsText (stampFields us us') ++ fieldsText fields).takeWhile (· ≠ 0)) := by
    rw [hchars', stringChars_eq]
  refine ⟨⟨(fieldsText fields).length, s'.out, if enabled then some s'.out.chars else none,
    (fieldsText (stampFields us us') ++ fieldsText fields).takeWhile (· ≠ 0)⟩,
    ?_, rfl, hchars', hstores', rfl⟩
  rw [printk, sprintf]
  show (vsprintf ([] : List UInt8).length ⟨[] ++ [], []⟩ _ _).bind _ = _
  rw [hstamp]
  simp only [Option.bind_eq_bind, Option.bind_some, hlen, hline, hserial]

/-- **The array of `printk`** is written only inside just when the time stamp, the fields and the
NUL are at most 1024 characters. -/
theorem printk_inside_iff (us us' : UInt64) (enabled : Bool) {fmt : List UInt8}
    {args : List VaArg} {fields : List Field} (h : Formats fmt args fields) :
    (∃ r, printk us us' enabled fmt args = some r ∧ ∀ j ∈ r.printfBuf.stores, j < 1024) ↔
      stampLength us + (fields.map Field.length).sum < 1024 := by
  obtain ⟨r, hrun, -, -, hstores, -⟩ := h.printk_eq us us' enabled
  simp only [hrun, Option.some.injEq, exists_eq_left', hstores, List.mem_append, List.mem_range'_1,
    length_fieldsText]
  constructor
  · intro hinside
    exact hinside _ (Or.inr ⟨Nat.le_add_right _ _, Nat.lt_succ_self _⟩)
  · intro hlt j hj
    omega

/-- The format `%s`. -/
def strFmt : List UInt8 := [0x25, 0x73, 0]

/-- A string of `n` characters. -/
def longString (n : ℕ) : List UInt8 := List.replicate n 0x61

theorem length_longString (n : ℕ) :
    ([Field.str 0 (longString n)].map Field.length).sum = n := by
  simp [Field.length, longString]

theorem formats_strFmt {n : ℕ} (hn : n ≤ 1024) :
    Formats strFmt [.str (longString n ++ [0])] [.str 0 (longString n)] := by
  have hstr : CStr (longString n ++ [0]) (longString n) :=
    CStr.of_append fun hmem => absurd (List.eq_of_mem_replicate hmem) (by decide)
  have hlen : strnlen (longString n ++ [0]) 1024 = some (longString n).length := by
    rw [hstr.strnlen_eq, Nat.min_eq_left (by rwa [longString, List.length_replicate])]
  refine .conv (show parseWidth [0x73, 0] = some (0, 0) by decide) rfl ?_ (.nul [] [])
  show ((strnlen (longString n ++ [0]) 1024).map _) = _
  rw [hlen, Option.map_some, List.take_left]

/-- One second after boot there is room for 1007 characters. -/
theorem printk_inside_iff_1007 : ∃ r, printk 1000000 1000000 true strFmt
    [.str (longString 1007 ++ [0])] = some r ∧ ∀ j ∈ r.printfBuf.stores, j < 1024 := by
  refine (printk_inside_iff 1000000 1000000 true (formats_strFmt (by decide))).mpr ?_
  have hstamp : stampLength 1000000 = 16 := by
    rw [stampLength, show (stampSeconds 1000000).toInt = 1 by decide]
    simp
  rw [hstamp, length_longString]
  decide

/-- A string of 1024 characters is not cut, and does not fit. -/
theorem not_printk_inside : ¬ ∀ (us us' : UInt64) (enabled : Bool) (fmt : List UInt8)
    (args : List VaArg) (fields : List Field), Formats fmt args fields →
      ∃ r, printk us us' enabled fmt args = some r ∧ ∀ j ∈ r.printfBuf.stores, j < 1024 := by
  intro h
  have hfmt := formats_strFmt (n := 1024) le_rfl
  obtain ⟨r, hrun, -, -, hstores, -⟩ := hfmt.printk_eq 0 0 true
  obtain ⟨r', hr', hinside⟩ := h 0 0 true _ _ _ hfmt
  obtain rfl := Option.some.inj (hrun.symm.trans hr')
  rw [hstores, length_fieldsText, length_longString] at hinside
  have hlast := hinside (stampLength 0 + 1024) (List.mem_append_right _
    (List.mem_range'_1.mpr ⟨Nat.le_add_right _ _, Nat.lt_succ_self _⟩))
  exact absurd hlast (Nat.not_lt.mpr (Nat.le_add_left _ _))

end GoofyOs
