import GoofyOs.Numbers

/-!
# The formatter

`_vsprintf` goes through a format and writes one field after another. It knows nothing of the size
of the array that it writes to, and has an array of 16 characters of its own for numbers, which
is one too few for a pointer of 16 digits.

The format is a buffer. What stands behind its NUL is read, too, when the last character is a `%`:
no conversion has a NUL for its letter, and the loop goes on behind it.

## Main definitions

* `parseWidth`, `vsprintf` — the code
* `Field` — what a part of the format and its argument come to, with the text and its length
* `Formats fmt args fields` — the arguments are those that the format asks for

## Main results

* `Formats.vsprintfLoop_eq` — the text of the fields is written, and nothing else
* `vsprintfLoop_isSome_iff` — there is a result just when the arguments match the format
* `numbuf_inside_iff` — when `numbuf` is large enough
-/

namespace GoofyOs

/-- An argument. -/
inductive VaArg
  | str (s : List UInt8)
  | int (n : Int32)
  | ulong (n : UInt64)

/-- `va_arg(args, char *)`. -/
def VaArg.toStr : VaArg → Option (List UInt8)
  | str s => some s
  | int _ => none
  | ulong _ => none

/-- `va_arg(args, int32_t)`. Of a 64-bit argument this is the low half. -/
def VaArg.toInt : VaArg → Option Int32
  | str _ => none
  | int n => some n
  | ulong n => some (.ofInt n.toNat)

/-- `va_arg(args, uint64_t)`. -/
def VaArg.toUlong : VaArg → Option UInt64
  | str _ => none
  | int _ => none
  | ulong n => some n

/-- The next argument. -/
def vaArg {α : Type} (get : VaArg → Option α) : List VaArg → Option (α × List VaArg)
  | [] => none
  | arg :: args => (get arg).map (·, args)

/-- `strnlen`. -/
def strnlen : List UInt8 → ℕ → Option ℕ
  | _, 0 => some 0
  | [], _ + 1 => none
  | c :: s, count + 1 => if c = 0 then some 0 else (strnlen s count).map (· + 1)

/-- The loop of `parse_width`: the width, and the number of characters. -/
def parseWidthLoop : List UInt8 → ℤ → ℕ → Option (ℤ × ℕ)
  | [], _, _ => none
  | c :: fmt, wd, consumed =>
    if 0x30 ≤ charVal c ∧ charVal c ≤ 0x39 then
      parseWidthLoop fmt (asInt (wd + (wd * 10 + (charVal c - 0x30)))) (consumed + 1)
    else some (wd, consumed)

/-- `parse_width`. -/
def parseWidth (fmt : List UInt8) : Option (ℤ × ℕ) := parseWidthLoop fmt 0 0

/-- The variables of `_vsprintf`: the index that is written next in the array, the array, and
`numbuf`. -/
structure Vsprintf where
  str : ℕ
  out : CharBuf
  numbuf : CharBuf

namespace Vsprintf

variable (s : Vsprintf)

/-- `*str++ = c`. -/
def put (c : UInt8) : Option Vsprintf :=
  (s.out.store s.str c).map fun out => { s with str := s.str + 1, out }

/-- `*str++ = c` for one character after another. -/
def puts : List UInt8 → Vsprintf → Option Vsprintf
  | [], s => some s
  | c :: cs, s => (s.put c).bind (puts cs)

/-- The loop that writes `n` spaces. -/
def pad (n : ℤ) : Option Vsprintf := s.puts (List.replicate n.toNat 0x20)

/-- The loop over `numbuf`, up to its NUL. -/
def putString : List UInt8 → Vsprintf → Option Vsprintf
  | [], _ => none
  | c :: cs, s => if c = 0 then some s else (s.put c).bind (putString cs)

/-- A conversion of a number, with what is written in front of it. -/
def putNumber (width : ℤ) (pre : List UInt8) (numbuf : Option CharBuf) : Option Vsprintf := do
  let numbuf ← numbuf
  let len ← strlen numbuf.chars
  let s ← { s with numbuf }.pad (asInt (width - pre.length - len))
  let s ← s.puts pre
  s.putString numbuf.chars

/-- The `switch` of `_vsprintf`. -/
def conversion (letter : UInt8) (width : ℤ) (args : List VaArg) :
    Option (List VaArg × Vsprintf) :=
  if letter = 0x73 then do -- `s`
    let (arg, args) ← vaArg VaArg.toStr args
    let len ← strnlen arg 1024
    let s ← (if (len : ℤ) < width then s.pad (width - len) else some s)
    (s.puts (arg.take len)).map (args, ·)
  else if letter = 0x63 then do -- `c`
    let s ← (if width > 1 then s.pad (width - 1) else some s)
    let (n, args) ← vaArg VaArg.toInt args
    (s.put (.ofInt n.toInt)).map (args, ·)
  else if letter = 0x64 then do -- `d`
    let (n, args) ← vaArg VaArg.toInt args
    (s.putNumber width [] (s.numbuf.itoa n.toInt 10 0)).map (args, ·)
  else if letter = 0x78 then do -- `x`
    let (n, args) ← vaArg VaArg.toInt args
    (s.putNumber width [] (s.numbuf.itoa n.toInt 16 0)).map (args, ·)
  else if letter = 0x58 then do -- `X`
    let (n, args) ← vaArg VaArg.toInt args
    (s.putNumber width [] (s.numbuf.itoa n.toInt 16 1)).map (args, ·)
  else if letter = 0x70 then do -- `p`
    let (n, args) ← vaArg VaArg.toUlong args
    (s.putNumber width [0x30, 0x78] (s.numbuf.ltoa n.toNat 16 1)).map (args, ·)
  else some (args, s)

end Vsprintf

/-- The loop of `_vsprintf`. -/
def vsprintfLoop (fmt : List UInt8) (args : List VaArg) (s : Vsprintf) : Option Vsprintf :=
  match fmt with
  | [] => none
  | c :: fmt =>
    if c = 0 then some s
    else if c ≠ 0x25 then (s.put c).bind (vsprintfLoop fmt args)
    else
      (parseWidth fmt).bind fun (width, consumed) =>
        match _ : fmt.drop consumed with
        | [] => none
        | letter :: fmt => (s.conversion letter width args).bind fun (args, s) =>
          vsprintfLoop fmt args s
termination_by fmt.length
decreasing_by
  · simp
  · rename_i hdrop
    have hlen := congrArg List.length hdrop
    rw [List.length_drop, List.length_cons] at hlen
    rw [List.length_cons]
    omega

/-- `_vsprintf`: its result, and the variables at the end. -/
def vsprintf (buf : ℕ) (out : CharBuf) (fmt : List UInt8) (args : List VaArg) :
    Option (ℕ × Vsprintf) := do
  let s ← vsprintfLoop fmt args ⟨buf, out, ⟨[], []⟩⟩
  let out ← s.out.store s.str 0
  some (s.str - buf, { s with out })

/-! ### Fields -/

/-- A character of the format that is written as it is, or a conversion with its width and argument.
Conversions that do not exist write nothing. -/
inductive Field
  | lit (c : UInt8)
  | str (width : ℤ) (s : List UInt8)
  | chr (width : ℤ) (c : UInt8)
  | dec (width : ℤ) (n : Int32)
  | hex (width : ℤ) (n : Int32) (capital : ℤ)
  | ptr (width : ℤ) (n : UInt64)
  | none

/-- A number of spaces. -/
def spaces (n : ℤ) : List UInt8 := List.replicate n.toNat 0x20

namespace Field

/-- What is written for a field. -/
def text : Field → List UInt8
  | lit c => [c]
  | str width s => spaces (width - s.length) ++ s
  | chr width c => spaces (width - 1) ++ [c]
  | dec width n =>
    let digits := itoaText n.toInt 10 0
    spaces (asInt (width - digits.length)) ++ digits
  | hex width n capital =>
    let digits := itoaText n.toInt 16 capital
    spaces (asInt (width - digits.length)) ++ digits
  | ptr width n =>
    let digits := ltoaText n.toNat 16 1
    spaces (asInt (width - 2 - digits.length)) ++ [0x30, 0x78] ++ digits
  | none => []

/-- What is written to `numbuf` for a field. -/
def digits : Field → Option (List UInt8)
  | dec _ n => some (itoaText n.toInt 10 0)
  | hex _ n capital => some (itoaText n.toInt 16 capital)
  | ptr _ n => some (ltoaText n.toNat 16 1)
  | _ => Option.none

/-- The field of a conversion, and the arguments that are left. -/
def read (letter : UInt8) (width : ℤ) (args : List VaArg) : Option (Field × List VaArg) :=
  if letter = 0x73 then
    (vaArg VaArg.toStr args).bind fun (arg, args) =>
      (strnlen arg 1024).map fun len => (str width (arg.take len), args)
  else if letter = 0x63 then
    (vaArg VaArg.toInt args).map fun (n, args) => (chr width (.ofInt n.toInt), args)
  else if letter = 0x64 then
    (vaArg VaArg.toInt args).map fun (n, args) => (dec width n, args)
  else if letter = 0x78 then
    (vaArg VaArg.toInt args).map fun (n, args) => (hex width n 0, args)
  else if letter = 0x58 then
    (vaArg VaArg.toInt args).map fun (n, args) => (hex width n 1, args)
  else if letter = 0x70 then
    (vaArg VaArg.toUlong args).map fun (n, args) => (ptr width n, args)
  else some (none, args)

end Field

/-- The arguments that a format asks for, and the fields. -/
inductive Formats : List UInt8 → List VaArg → List Field → Prop
  | nul (rest : List UInt8) (args : List VaArg) : Formats (0 :: rest) args []
  | lit {c : UInt8} {fmt : List UInt8} {args : List VaArg} {fields : List Field} (hzero : c ≠ 0)
    (hpercent : c ≠ 0x25) (hrest : Formats fmt args fields) :
    Formats (c :: fmt) args (.lit c :: fields)
  | conv {fmt fmt' : List UInt8} {args args' : List VaArg} {fields : List Field} {width : ℤ}
    {consumed : ℕ} {letter : UInt8} {f : Field} (hwidth : parseWidth fmt = some (width, consumed))
    (hletter : fmt.drop consumed = letter :: fmt')
    (hread : Field.read letter width args = some (f, args')) (hrest : Formats fmt' args' fields) :
    Formats (0x25 :: fmt) args (f :: fields)

/-- The text of all fields. -/
def fieldsText (fields : List Field) : List UInt8 := fields.flatMap Field.text

variable {fmt fmt' cs ds chars text w rest : List UInt8} {args args' : List VaArg}
  {fields : List Field} {f : Field} {width : ℤ} {letter : UInt8} {consumed n : ℕ} {st : List ℕ}
  {nb nb' out : CharBuf} {s : Vsprintf}

/-! ### What is written -/

theorem spaces_of_nonpos {n : ℤ} (h : n ≤ 0) : spaces n = [] := by
  rw [spaces, Int.toNat_of_nonpos h]
  rfl

theorem length_of_strnlen {len : ℕ} (h : strnlen cs n = some len) : len ≤ n ∧ len ≤ cs.length := by
  fun_induction strnlen cs n generalizing len with
  | case1 => cases h; exact ⟨le_rfl, Nat.zero_le _⟩
  | case2 => cases h
  | case3 => cases h; exact ⟨Nat.zero_le _, Nat.zero_le _⟩
  | case4 c s count hc ih =>
    obtain ⟨len, hlen, rfl⟩ := Option.map_eq_some_iff.mp h
    obtain ⟨hcount, hcs⟩ := ih hlen
    exact ⟨Nat.succ_le_succ hcount, Nat.succ_le_succ hcs⟩

/-- The length of a string, cut at a number of characters. -/
theorem CStr.strnlen_eq (h : CStr chars text) (n : ℕ) :
    strnlen chars n = some (min text.length n) := by
  obtain ⟨hzero, rest, rfl⟩ := h
  induction text generalizing n with
  | nil =>
    cases n with
    | zero => rfl
    | succ n => simp [strnlen]
  | cons c text ih =>
    obtain ⟨hc, htext⟩ := not_or.mp (mt List.mem_cons.mpr hzero)
    cases n with
    | zero => simp [strnlen]
    | succ n =>
      rw [List.cons_append, strnlen, if_neg (Ne.symm hc), ih n htext, Option.map_some,
        List.length_cons, Nat.add_min_add_right]

namespace Vsprintf

theorem puts_append (s : Vsprintf) : s.puts (cs ++ ds) = (s.puts cs).bind (puts ds) := by
  induction cs generalizing s with
  | nil => rfl
  | cons c cs ih =>
    rw [List.cons_append, puts, puts, Option.bind_assoc]
    exact congrArg _ (funext ih)

/-- The loop over a string in `numbuf` writes the string. -/
theorem putString_eq (h : CStr chars text) (s : Vsprintf) : s.putString chars = s.puts text := by
  obtain ⟨hzero, rest, rfl⟩ := h
  induction text generalizing s with
  | nil => rfl
  | cons c text ih =>
    obtain ⟨hc, htext⟩ := not_or.mp (mt List.mem_cons.mpr hzero)
    rw [List.cons_append, putString, if_neg (Ne.symm hc), puts]
    exact congrArg _ (funext fun s => ih s htext)

/-- Spaces are only written when there is room for them. -/
theorem ite_pad {n : ℤ} {p : Prop} [Decidable p] (h : ¬ p → n ≤ 0) (s : Vsprintf) :
    (if p then s.pad n else some s) = s.puts (spaces n) := by
  split
  · rfl
  · next hp =>
    rw [spaces_of_nonpos (h hp)]
    rfl

theorem putNumber_eq {pre : List UInt8} (h : nb.Wrote nb' text) (s : Vsprintf) :
    s.putNumber width pre (some nb') = { s with numbuf := nb' }.puts
      (spaces (asInt (width - pre.length - text.length)) ++ pre ++ text) := by
  rw [putNumber, Option.bind_eq_bind, Option.bind_some, h.str.strlen_eq]
  simp only [Option.bind_eq_bind, Option.bind_some, puts_append, Option.bind_assoc,
    putString_eq h.str]
  rfl

/-- A number that `itoa` writes. -/
theorem putNumber_itoa (s : Vsprintf) (n : Int32) (base : ℕ) (capital : ℤ) (hbase : 2 ≤ base)
    (hbase' : base ≤ 36) : ∃ nb', s.numbuf.Wrote nb' (itoaText n.toInt base capital) ∧
      s.putNumber width [] (s.numbuf.itoa n.toInt base capital) =
        { s with numbuf := nb' }.puts
          (let digits := itoaText n.toInt base capital
          spaces (asInt (width - digits.length)) ++ digits) := by
  obtain ⟨nb', hitoa, hwrote⟩ := s.numbuf.itoa_wrote n.toInt base capital hbase hbase'
  refine ⟨nb', hwrote, ?_⟩
  rw [hitoa, putNumber_eq hwrote, List.length_nil, Nat.cast_zero, sub_zero, List.append_nil]

/-- A pointer. -/
theorem putNumber_ltoa (s : Vsprintf) (n : UInt64) :
    ∃ nb', s.numbuf.Wrote nb' (ltoaText n.toNat 16 1) ∧
      s.putNumber width [0x30, 0x78] (s.numbuf.ltoa n.toNat 16 1) =
        { s with numbuf := nb' }.puts (Field.ptr width n).text := by
  obtain ⟨nb', hltoa, hwrote⟩ := s.numbuf.ltoa_wrote n.toNat 16 1 (by decide) (by decide)
  refine ⟨nb', hwrote, ?_⟩
  rw [hltoa, putNumber_eq hwrote]
  rfl

/-- A conversion that writes its field without `numbuf`. -/
theorem exists_numbuf {r : Option (List VaArg × Vsprintf)} (hdigits : f.digits = none)
    (h : r = (s.puts f.text).map (args', ·)) :
    ∃ nb', r = ({ s with numbuf := nb' }.puts f.text).map (args', ·) ∧
      ∀ j, j ∈ nb'.stores ↔ j ∈ s.numbuf.stores ∨ ∃ text ∈ f.digits, j ≤ text.length :=
  ⟨s.numbuf, h, fun j => by simp [hdigits]⟩

/-- A conversion that takes an argument and writes it as a number. -/
theorem exists_numbuf_number {α : Type} {get : VaArg → Option α} (field : α → Field)
    {number : α → Option Vsprintf} {digits : α → List UInt8}
    (h : ((vaArg get args).map fun r => (field r.1, r.2)) = some (f, args'))
    (hdigits : ∀ n, (field n).digits = some (digits n))
    (hnumber : ∀ n, ∃ nb', s.numbuf.Wrote nb' (digits n) ∧
      number n = { s with numbuf := nb' }.puts (field n).text) :
    ∃ nb', ((vaArg get args).bind fun r => (number r.1).map (r.2, ·)) =
        ({ s with numbuf := nb' }.puts f.text).map (args', ·) ∧
      ∀ j, j ∈ nb'.stores ↔ j ∈ s.numbuf.stores ∨ ∃ text ∈ f.digits, j ≤ text.length := by
  obtain ⟨⟨n, args₁⟩, harg, heq⟩ := Option.map_eq_some_iff.mp h
  cases heq
  obtain ⟨nb', hwrote, hputs⟩ := hnumber n
  rw [harg, Option.bind_some, hputs, hdigits]
  exact ⟨nb', rfl, fun j => by rw [hwrote.stores]; simp⟩

/-- **A conversion** writes the text of its field. -/
theorem conversion_eq (h : Field.read letter width args = some (f, args')) (s : Vsprintf) :
    ∃ nb', s.conversion letter width args =
        ({ s with numbuf := nb' }.puts f.text).map (args', ·) ∧
      ∀ j, j ∈ nb'.stores ↔ j ∈ s.numbuf.stores ∨ ∃ text ∈ f.digits, j ≤ text.length := by
  rw [Field.read] at h
  rw [conversion]
  by_cases hs : letter = 0x73
  · rw [if_pos hs] at h ⊢
    obtain ⟨⟨arg, args₁⟩, harg, h⟩ := Option.bind_eq_some_iff.mp h
    obtain ⟨len, hlen, heq⟩ := Option.map_eq_some_iff.mp h
    cases heq
    refine exists_numbuf rfl ?_
    rw [harg]
    simp only [Option.bind_eq_bind, Option.bind_some, hlen]
    rw [ite_pad (by omega), Field.text, List.length_take,
      Nat.min_eq_left (length_of_strnlen hlen).2, puts_append, Option.map_bind]
    rfl
  rw [if_neg hs] at h ⊢
  by_cases hc : letter = 0x63
  · rw [if_pos hc] at h ⊢
    obtain ⟨⟨n, args₁⟩, harg, heq⟩ := Option.map_eq_some_iff.mp h
    cases heq
    refine exists_numbuf rfl ?_
    rw [ite_pad (by omega), harg, Field.text, puts_append, Option.map_bind]
    refine congrArg _ (funext fun s => ?_)
    simp [puts]
  rw [if_neg hc] at h ⊢
  by_cases hd : letter = 0x64
  · rw [if_pos hd] at h ⊢
    exact exists_numbuf_number (.dec width) h (fun _ => rfl) fun n =>
      putNumber_itoa s n 10 0 (by decide) (by decide)
  rw [if_neg hd] at h ⊢
  by_cases hx : letter = 0x78
  · rw [if_pos hx] at h ⊢
    exact exists_numbuf_number (.hex width · 0) h (fun _ => rfl) fun n =>
      putNumber_itoa s n 16 0 (by decide) (by decide)
  rw [if_neg hx] at h ⊢
  by_cases hX : letter = 0x58
  · rw [if_pos hX] at h ⊢
    exact exists_numbuf_number (.hex width · 1) h (fun _ => rfl) fun n =>
      putNumber_itoa s n 16 1 (by decide) (by decide)
  rw [if_neg hX] at h ⊢
  by_cases hp : letter = 0x70
  · rw [if_pos hp] at h ⊢
    exact exists_numbuf_number (.ptr width) h (fun _ => rfl) fun n => putNumber_ltoa s n
  · rw [if_neg hp] at h ⊢
    cases h
    exact exists_numbuf rfl rfl

/-- Without its argument there is no conversion. -/
theorem conversion_none (h : Field.read letter width args = none) (s : Vsprintf) :
    s.conversion letter width args = none := by
  rw [Field.read] at h
  rw [conversion]
  split_ifs at h ⊢
  · cases harg : vaArg VaArg.toStr args with
    | none => rfl
    | some r =>
      rw [harg, Option.bind_some] at h
      have hlen := Option.map_eq_none_iff.mp h
      simp only [Option.bind_eq_bind, Option.bind_some, hlen, Option.bind_none]
  all_goals
    have hnone := Option.map_eq_none_iff.mp h
    simp [hnone]

theorem put_eq (c : UInt8) (w rest : List UInt8) (st : List ℕ) (nb : CharBuf) :
    put ⟨w.length, ⟨w ++ rest, st⟩, nb⟩ c =
      some ⟨(w ++ [c]).length, ⟨w ++ [c] ++ rest.drop 1, st ++ [w.length]⟩, nb⟩ := by
  rw [put, CharBuf.store_eq, List.length_append, List.append_assoc]
  rfl

/-- **Writing one character after another.** -/
theorem puts_eq (cs w rest : List UInt8) (st : List ℕ) (nb : CharBuf) :
    puts cs ⟨w.length, ⟨w ++ rest, st⟩, nb⟩ =
      some ⟨(w ++ cs).length, ⟨w ++ cs ++ rest.drop cs.length,
        st ++ List.range' w.length cs.length⟩, nb⟩ := by
  induction cs generalizing w rest st with
  | nil => simp [puts]
  | cons c cs ih =>
    rw [puts, put_eq, Option.bind_some, ih]
    simp [List.range'_succ]

end Vsprintf

/-! ### The loop -/

/-- The conversion at a `%`. -/
theorem vsprintfLoop_percent (fmt : List UInt8) (args : List VaArg) (s : Vsprintf) :
    vsprintfLoop (0x25 :: fmt) args s = (parseWidth fmt).bind fun r =>
      match fmt.drop r.2 with
      | [] => none
      | letter :: fmt => (s.conversion letter r.1 args).bind fun r => vsprintfLoop fmt r.1 r.2 := by
  rw [vsprintfLoop, if_neg (by decide), if_neg (by decide)]
  refine congrArg _ (funext fun ⟨width, consumed⟩ => ?_)
  dsimp only
  split
  · next heq => rw [heq]
  · next heq => rw [heq]

theorem fieldsText_cons : fieldsText (f :: fields) = f.text ++ fieldsText fields :=
  List.flatMap_cons

/-- **The formatter** writes the text of the fields, and `numbuf` for the numbers among them. -/
theorem Formats.vsprintfLoop_eq (h : Formats fmt args fields) (w rest : List UInt8) (st : List ℕ)
    (nb : CharBuf) : ∃ nb', vsprintfLoop fmt args ⟨w.length, ⟨w ++ rest, st⟩, nb⟩ =
        Vsprintf.puts (fieldsText fields) ⟨w.length, ⟨w ++ rest, st⟩, nb'⟩ ∧
      ∀ j, j ∈ nb'.stores ↔ j ∈ nb.stores ∨
        ∃ f ∈ fields, ∃ text ∈ f.digits, j ≤ text.length := by
  induction h generalizing w rest st nb with
  | nul fmt args =>
    refine ⟨nb, ?_, by simp⟩
    rw [vsprintfLoop, if_pos rfl]
    rfl
  | @lit c fmt args fields hzero hpercent hrest ih =>
    obtain ⟨nb', hloop, hst⟩ := ih (w ++ [c]) (rest.drop 1) (st ++ [w.length]) nb
    refine ⟨nb', ?_, fun j => by simp [hst, Field.digits]⟩
    rw [vsprintfLoop, if_neg hzero, if_pos hpercent, Vsprintf.put_eq, Option.bind_some, hloop,
      fieldsText_cons, Vsprintf.puts_append, Field.text, Vsprintf.puts, Vsprintf.put_eq]
    rfl
  | @conv fmt fmt' args args' fields width consumed letter f hwidth hletter hread hrest ih =>
    obtain ⟨nb₁, hconv, hst₁⟩ :=
      Vsprintf.conversion_eq hread ⟨w.length, ⟨w ++ rest, st⟩, nb⟩
    obtain ⟨nb', hloop, hst⟩ := ih (w ++ f.text) (rest.drop f.text.length)
      (st ++ List.range' w.length f.text.length) nb₁
    refine ⟨nb', ?_, fun j => ?_⟩
    · rw [vsprintfLoop_percent, hwidth, Option.bind_some, hletter, fieldsText_cons,
        Vsprintf.puts_append, Vsprintf.puts_eq, Option.bind_some, ← hloop]
      dsimp only
      rw [hconv, Vsprintf.puts_eq, Option.map_some, Option.bind_some]
    · rw [hst, hst₁, or_assoc, List.exists_mem_cons_iff]

/-- **A result** is there just when the arguments match. -/
theorem vsprintfLoop_isSome_iff (fmt : List UInt8) (args : List VaArg) (w rest : List UInt8)
    (st : List ℕ) (nb : CharBuf) :
    (vsprintfLoop fmt args ⟨w.length, ⟨w ++ rest, st⟩, nb⟩).isSome ↔
      ∃ fields, Formats fmt args fields := by
  constructor
  · intro hsome
    induction hn : fmt.length using Nat.strong_induction_on
      generalizing fmt args w rest st nb with
    | _ n ih =>
      cases fmt with
      | nil =>
        rw [vsprintfLoop] at hsome
        cases hsome
      | cons c fmt =>
        rw [List.length_cons] at hn
        by_cases hzero : c = 0
        · exact ⟨[], hzero ▸ .nul fmt args⟩
        by_cases hpercent : c = 0x25
        · subst hpercent
          rw [vsprintfLoop_percent] at hsome
          obtain ⟨s', hrun⟩ := Option.isSome_iff_exists.mp hsome
          obtain ⟨⟨width, consumed⟩, hwidth, hrun⟩ := Option.bind_eq_some_iff.mp hrun
          dsimp only at hrun
          split at hrun
          · cases hrun
          · next letter fmt' hdrop =>
            have hlen := congrArg List.length hdrop
            rw [List.length_drop, List.length_cons] at hlen
            cases hread : Field.read letter width args with
            | none =>
              rw [Vsprintf.conversion_none hread] at hrun
              cases hrun
            | some r =>
              obtain ⟨f, args'⟩ := r
              obtain ⟨nb₁, hconv, -⟩ :=
                Vsprintf.conversion_eq hread ⟨w.length, ⟨w ++ rest, st⟩, nb⟩
              rw [hconv, Vsprintf.puts_eq, Option.map_some, Option.bind_some] at hrun
              obtain ⟨fields, hfields⟩ := ih _ (by omega) _ _ _ _ _ _
                (Option.isSome_iff_exists.mpr ⟨s', hrun⟩) rfl
              exact ⟨_, .conv hwidth hdrop hread hfields⟩
        · rw [vsprintfLoop, if_neg hzero, if_pos hpercent, Vsprintf.put_eq,
            Option.bind_some] at hsome
          obtain ⟨fields, hfields⟩ := ih _ (by omega) _ _ _ _ _ _ hsome rfl
          exact ⟨_, .lit hzero hpercent hfields⟩
  · rintro ⟨fields, h⟩
    obtain ⟨nb', hloop, -⟩ := h.vsprintfLoop_eq w rest st nb
    rw [hloop, Vsprintf.puts_eq]
    rfl

/-- **`_vsprintf`** writes the text of the fields and a NUL, and returns the length of the text. -/
theorem Formats.vsprintf_eq (h : Formats fmt args fields) (w rest : List UInt8) (st : List ℕ) :
    ∃ s, vsprintf w.length ⟨w ++ rest, st⟩ fmt args = some ((fieldsText fields).length, s) ∧
      s.out.chars = w ++ fieldsText fields ++ 0 :: rest.drop ((fieldsText fields).length + 1) ∧
      s.out.stores = st ++ List.range' w.length ((fieldsText fields).length + 1) ∧
      ∀ j, j ∈ s.numbuf.stores ↔ ∃ f ∈ fields, ∃ text ∈ f.digits, j ≤ text.length := by
  obtain ⟨nb', hloop, hst⟩ := h.vsprintfLoop_eq w rest st ⟨[], []⟩
  rw [Vsprintf.puts_eq] at hloop
  refine ⟨⟨(w ++ fieldsText fields).length, ⟨_, _⟩, nb'⟩, ?_, rfl, rfl, fun j => by simp [hst]⟩
  rw [vsprintf, hloop, Option.bind_eq_bind, Option.bind_some, CharBuf.store_eq, List.drop_drop,
    List.range'_1_concat]
  simp

/-! ### How long the fields are -/

/-- The number of characters of a field. -/
def Field.length : Field → ℕ
  | lit _ => 1
  | str width s => max width.toNat s.length
  | chr width _ => max width.toNat 1
  | dec width n =>
    let len := Nat.log 10 n.toInt.natAbs + 1 + if n.toInt < 0 then 1 else 0
    (asInt (width - len)).toNat + len
  | hex width n _ =>
    let len := Nat.log 16 n.toInt.natAbs + 1
    (asInt (width - len)).toNat + len
  | ptr width n =>
    let len := Nat.log 16 n.toNat + 1
    (asInt (width - 2 - len)).toNat + 2 + len
  | none => 0

/-- `itoa` writes the sign and the digits of an `int`. -/
theorem length_itoaText_int32 (n : Int32) {base : ℕ} (hbase : 2 ≤ base) (capital : ℤ) :
    (itoaText n.toInt base capital).length =
      Nat.log base n.toInt.natAbs + 1 + if n.toInt < 0 ∧ base = 10 then 1 else 0 :=
  length_itoaText hbase n.le_toInt n.toInt_lt

namespace Field

theorem length_spaces (n : ℤ) : (spaces n).length = n.toNat := List.length_replicate

theorem length_text (f : Field) : f.text.length = f.length := by
  cases f with
  | lit c => rfl
  | str width s =>
    rw [text, Field.length, List.length_append, length_spaces]
    omega
  | chr width c =>
    rw [text, Field.length, List.length_append, length_spaces, List.length_singleton]
    omega
  | dec width n =>
    have hlen := length_itoaText_int32 n (show 2 ≤ 10 by decide) 0
    simp only [and_true] at hlen
    simp only [text, Field.length, List.length_append, length_spaces, hlen]
  | hex width n capital =>
    have hlen := length_itoaText_int32 n (show 2 ≤ 16 by decide) capital
    rw [if_neg (by omega), Nat.add_zero] at hlen
    simp only [text, Field.length, List.length_append, length_spaces, hlen]
  | ptr width n =>
    have hlen := length_ltoaText n.toNat 1 (show 2 ≤ 16 by decide)
    simp only [text, Field.length, List.length_append, length_spaces, hlen]
    rfl
  | none => rfl

/-- A width that is not negative is filled up with spaces. -/
theorem pad_eq_max {len : ℕ} (hmin : 0 ≤ width) (hmax : width < 2 ^ 31) (hlen : len ≤ 2 ^ 31) :
    (asInt (width - len)).toNat + len = max width.toNat len := by
  rw [asInt_of_lt (by omega) (by omega)]
  omega

end Field

theorem length_fieldsText (fields : List Field) :
    (fieldsText fields).length = (fields.map Field.length).sum := by
  rw [fieldsText, List.length_flatMap]
  exact congrArg List.sum (List.map_congr_left fun f _ => f.length_text)

/-! ### The size of `numbuf` -/

/-- The numbers that `itoa` writes fit `numbuf`, and pointers of up to 15 digits do. -/
theorem Field.digits_lt_iff (f : Field) : (∀ text ∈ f.digits, text.length < 16) ↔
    ∀ width n, f = .ptr width n → n.toNat < 2 ^ 60 := by
  have hlog : ∀ (n : Int32) {base : ℕ}, 10 ≤ base → Nat.log base n.toInt.natAbs < 10 := by
    intro n base hbase
    have hmin := n.le_toInt
    have hmax := n.toInt_lt
    refine Nat.log_lt_of_lt_pow' (by decide) ?_
    calc n.toInt.natAbs < 10 ^ 10 := by omega
      _ ≤ base ^ 10 := Nat.pow_le_pow_left hbase 10
  have hint : ∀ (n : Int32) {base : ℕ} (capital : ℤ), 10 ≤ base →
      (itoaText n.toInt base capital).length < 16 := by
    intro n base capital hbase
    have hlt := hlog n hbase
    rw [length_itoaText_int32 n (by omega) capital]
    split <;> omega
  cases f with
  | dec width n => simpa [digits] using hint n 0 (by decide)
  | hex width n capital => simpa [digits] using hint n capital (by decide)
  | ptr width n =>
    have hpow : Nat.log 16 n.toNat + 1 < 16 ↔ n.toNat < 16 ^ 15 :=
      ⟨fun h => Nat.lt_pow_of_log_lt (by decide) (Nat.lt_of_succ_lt_succ h),
        fun h => Nat.succ_lt_succ (Nat.log_lt_of_lt_pow' (by decide) h)⟩
    have hlen := length_ltoaText n.toNat 1 (show 2 ≤ 16 by decide)
    simp only [digits, Option.mem_def, Option.some.injEq, forall_eq', hlen, ptr.injEq, hpow]
    constructor
    · rintro hlt width n ⟨-, rfl⟩
      exact hlt
    · exact fun h => h width n ⟨rfl, rfl⟩
  | lit c => simp [digits]
  | str width s => simp [digits]
  | chr width c => simp [digits]
  | none => simp [digits]

/-- **`numbuf`.** `itoa` and `ltoa` write it only inside just when no pointer has 16 digits. -/
theorem numbuf_inside_iff (w rest : List UInt8) (st : List ℕ) {fmt : List UInt8}
    {args : List VaArg} {fields : List Field} (h : Formats fmt args fields) :
    (∃ r, vsprintf w.length ⟨w ++ rest, st⟩ fmt args = some r ∧
      ∀ j ∈ r.2.numbuf.stores, j < 16) ↔
    ∀ width n, Field.ptr width n ∈ fields → n.toNat < 2 ^ 60 := by
  obtain ⟨s, hrun, -, -, hst⟩ := h.vsprintf_eq w rest st
  simp only [hrun, Option.some.injEq, exists_eq_left', hst]
  constructor
  · intro hinside width n hmem
    refine (Field.digits_lt_iff (.ptr width n)).mp (fun text htext => ?_) width n rfl
    exact hinside text.length ⟨_, hmem, text, htext, le_rfl⟩
  · rintro hptr j ⟨f, hmem, text, htext, hj⟩
    have hlt := (Field.digits_lt_iff f).mpr (fun width n hf => hptr width n (hf ▸ hmem)) text htext
    exact Nat.lt_of_le_of_lt hj hlt

/-- The format `%p`. -/
def ptrFmt : List UInt8 := [0x25, 0x70, 0]

theorem formats_ptrFmt (n : UInt64) : Formats ptrFmt [.ulong n] [.ptr 0 n] :=
  .conv (show parseWidth [0x70, 0] = some (0, 0) by decide) rfl rfl (.nul [] [])

/-- A pointer of 15 digits. -/
theorem numbuf_inside_iff_15 : ∃ r, vsprintf 0 ⟨[], []⟩ ptrFmt [.ulong 0xfffffffffffffff] = some r ∧
    ∀ j ∈ r.2.numbuf.stores, j < 16 := by
  refine (numbuf_inside_iff [] [] [] (formats_ptrFmt _)).mpr fun width n hmem => ?_
  cases List.mem_singleton.mp hmem
  decide

/-- A pointer to the direct map has 16 digits, and the NUL is behind them. -/
theorem not_numbuf_inside : ¬ ∀ (w rest : List UInt8) (st : List ℕ) (fmt : List UInt8)
    (args : List VaArg) (fields : List Field), Formats fmt args fields →
      ∃ r, vsprintf w.length ⟨w ++ rest, st⟩ fmt args = some r ∧
        ∀ j ∈ r.2.numbuf.stores, j < 16 := by
  intro h
  obtain ⟨s, hrun, -, -, hst⟩ := (formats_ptrFmt 0xffff800000000000).vsprintf_eq [] [] []
  obtain ⟨r, hr, hinside⟩ := h [] [] [] _ _ _ (formats_ptrFmt 0xffff800000000000)
  obtain rfl := Option.some.inj (hrun.symm.trans hr)
  have hlt := (Field.digits_lt_iff (.ptr 0 0xffff800000000000)).mp fun text htext =>
    hinside text.length ((hst _).mpr ⟨_, List.mem_singleton_self _, text, htext, le_rfl⟩)
  exact absurd (hlt 0 _ rfl) (by decide)

end GoofyOs
