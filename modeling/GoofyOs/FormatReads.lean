import GoofyOs.Vsprintf

/-!
# What the formatter reads of its format

The cursor of `_vsprintf` goes on by one in the header of the loop, by one behind a `%`, and by the
length of the width. A NUL that stands where the letter of a conversion should be matches no case
of the `switch`, and the header steps over it. So a format must not end within a conversion.

## Main definitions

* `formatReads` — the offsets that are read
* `complete` — a format does not end within a conversion

## Main results

* `vsprintfLoop_congr` — what is not read does not matter
* `formatReads_isSome_iff` — the scan ends just when there are arguments for the format
* `readsInside_iff` — when nothing behind the NUL is read
-/

namespace GoofyOs

/-- The digits of a width. -/
def isDigit (c : UInt8) : Bool := decide (0x30 ≤ charVal c ∧ charVal c ≤ 0x39)

/-- The offsets that the loop of `_vsprintf` reads in the format, from an offset on: those of its
header, those of `parse_width`, which reads one character that is not a digit, and that of the
`switch`. The arguments do not matter for them. -/
def formatReads (fmt : List UInt8) (pos : ℕ) : Option (List ℕ) :=
  match fmt with
  | [] => none
  | c :: fmt =>
    if c = 0 then some [pos]
    else if c ≠ 0x25 then (formatReads fmt (pos + 1)).map (pos :: ·)
    else
      (parseWidth fmt).bind fun (_, consumed) =>
        match _ : fmt.drop consumed with
        | [] => none
        | _ :: fmt => (formatReads fmt (pos + 1 + consumed + 1)).map
          (pos :: List.range' (pos + 1) (consumed + 1) ++ [pos + 1 + consumed] ++ ·)
termination_by fmt.length
decreasing_by
  · simp
  · rename_i hdrop
    have hlen := congrArg List.length hdrop
    rw [List.length_drop, List.length_cons] at hlen
    rw [List.length_cons]
    omega

/-- A format, or what is left of it behind a `%`, does not end within a conversion. -/
def complete : Bool → List UInt8 → Bool
  | inside, [] => !inside
  | false, c :: s => complete (c == 0x25) s
  | true, c :: s => complete (isDigit c) s

/-- Nothing behind the NUL of a format is read, whatever it is, and it does not matter. -/
def ReadsInside (s : List UInt8) : Prop :=
  ∀ rest, ∃ reads, formatReads (s ++ 0 :: rest) 0 = some reads ∧ (∀ i ∈ reads, i ≤ s.length) ∧
    ∀ args st, vsprintfLoop (s ++ 0 :: rest) args st = vsprintfLoop (s ++ [0]) args st

variable {fmt fmt' ds s rest : List UInt8} {reads : List ℕ} {c : UInt8} {pos k n : ℕ} {wd w : ℤ}

/-! ### `parse_width` -/

/-- The loop of `parse_width` goes over the digits in front. -/
theorem parseWidthLoop_digits (hds : ∀ c ∈ ds, isDigit c) (hc : ¬ isDigit c) (wd : ℤ) (k : ℕ) :
    ∃ w, ∀ fmt, parseWidthLoop (ds ++ c :: fmt) wd k = some (w, k + ds.length) := by
  induction ds generalizing wd k with
  | nil =>
    refine ⟨wd, fun fmt => ?_⟩
    rw [List.nil_append, parseWidthLoop, if_neg (by simpa [isDigit] using hc)]
    rfl
  | cons d ds ih =>
    obtain ⟨hd, hds⟩ := List.forall_mem_cons.mp hds
    obtain ⟨w, hw⟩ := ih hds (asInt (wd + (wd * 10 + (charVal d - 0x30)))) (k + 1)
    refine ⟨w, fun fmt => ?_⟩
    rw [List.cons_append, parseWidthLoop, if_pos (by simpa [isDigit] using hd), hw,
      List.length_cons, Nat.add_right_comm, Nat.add_assoc]

/-- The digits in front, and what stops `parse_width`. -/
theorem parseWidth_digits (hds : ∀ c ∈ ds, isDigit c) (hc : ¬ isDigit c) :
    ∃ w, ∀ fmt, parseWidth (ds ++ c :: fmt) = some (w, ds.length) := by
  obtain ⟨w, hw⟩ := parseWidthLoop_digits hds hc 0 0
  rw [Nat.zero_add] at hw
  exact ⟨w, hw⟩

/-- Where a format is cut behind a `%`. -/
theorem exists_digits (s : List UInt8) :
    (∀ c ∈ s, isDigit c) ∨
      ∃ ds c t, s = ds ++ c :: t ∧ (∀ c ∈ ds, isDigit c) ∧ ¬ isDigit c := by
  induction s with
  | nil => exact .inl fun c hc => absurd hc List.not_mem_nil
  | cons c s ih =>
    by_cases hc : isDigit c
    · rcases ih with hs | ⟨ds, c', t, rfl, hds, hc'⟩
      · exact .inl (List.forall_mem_cons.mpr ⟨hc, hs⟩)
      · exact .inr ⟨c :: ds, c', t, rfl, List.forall_mem_cons.mpr ⟨hc, hds⟩, hc'⟩
    · exact .inr ⟨[], c, s, rfl, fun c hc => absurd hc List.not_mem_nil, hc⟩

/-- A width of digits up to the end of the format. -/
theorem parseWidth_none (hs : ∀ c ∈ s, isDigit c) : parseWidth s = none := by
  have hloop : ∀ wd k, parseWidthLoop s wd k = none := by
    induction s with
    | nil => exact fun _ _ => rfl
    | cons c s ih =>
      obtain ⟨hc, hs⟩ := List.forall_mem_cons.mp hs
      intro wd k
      rw [parseWidthLoop, if_pos (by simpa [isDigit] using hc)]
      exact ih hs _ _
  exact hloop 0 0

/-- The four ways in which a format goes on. -/
theorem format_cases (fmt : List UInt8) :
    fmt = [] ∨ (∃ c t, fmt = c :: t ∧ c ≠ 0x25) ∨
      (∃ ds, fmt = 0x25 :: ds ∧ ∀ c ∈ ds, isDigit c) ∨
      ∃ ds c t, fmt = 0x25 :: (ds ++ c :: t) ∧ (∀ c ∈ ds, isDigit c) ∧ ¬ isDigit c := by
  cases fmt with
  | nil => exact .inl rfl
  | cons c t =>
    by_cases hc : c = 0x25
    · subst hc
      rcases exists_digits t with ht | ⟨ds, c, t, rfl, hds, hc⟩
      · exact .inr (.inr (.inl ⟨t, rfl, ht⟩))
      · exact .inr (.inr (.inr ⟨ds, c, t, rfl, hds, hc⟩))
    · exact .inr (.inl ⟨c, t, rfl, hc⟩)

/-! ### The loop -/

theorem formatReads_nul : formatReads (0 :: fmt) pos = some [pos] := by
  rw [formatReads, if_pos rfl]

theorem formatReads_lit (hzero : c ≠ 0) (hc : c ≠ 0x25) :
    formatReads (c :: fmt) pos = (formatReads fmt (pos + 1)).map (pos :: ·) := by
  rw [formatReads, if_neg hzero, if_pos hc]

theorem formatReads_percent (fmt : List UInt8) (pos : ℕ) :
    formatReads (0x25 :: fmt) pos = (parseWidth fmt).bind fun r =>
      match fmt.drop r.2 with
      | [] => none
      | _ :: fmt => (formatReads fmt (pos + 1 + r.2 + 1)).map
        (pos :: List.range' (pos + 1) (r.2 + 1) ++ [pos + 1 + r.2] ++ ·) := by
  rw [formatReads, if_neg (by decide), if_neg (by decide)]
  refine congrArg _ (funext fun ⟨width, consumed⟩ => ?_)
  dsimp only
  split
  · next heq => rw [heq]
  · next heq => rw [heq]

/-- A conversion with its digits and its letter. -/
theorem formatReads_conv (hds : ∀ c ∈ ds, isDigit c) (hc : ¬ isDigit c) (fmt : List UInt8)
    (pos : ℕ) : formatReads (0x25 :: (ds ++ c :: fmt)) pos =
      (formatReads fmt (pos + 1 + ds.length + 1)).map
        (pos :: List.range' (pos + 1) (ds.length + 1) ++ [pos + 1 + ds.length] ++ ·) := by
  obtain ⟨w, hw⟩ := parseWidth_digits hds hc
  rw [formatReads_percent, hw, Option.bind_some, List.drop_left]

theorem formatReads_digits (hds : ∀ c ∈ ds, isDigit c) (pos : ℕ) :
    formatReads (0x25 :: ds) pos = none := by
  rw [formatReads_percent, parseWidth_none hds, Option.bind_none]

theorem vsprintfLoop_conv (hds : ∀ c ∈ ds, isDigit c) (hc : ¬ isDigit c) :
    ∃ w, ∀ fmt args s, vsprintfLoop (0x25 :: (ds ++ c :: fmt)) args s =
      (s.conversion c w args).bind fun r => vsprintfLoop fmt r.1 r.2 := by
  obtain ⟨w, hw⟩ := parseWidth_digits hds hc
  refine ⟨w, fun fmt args s => ?_⟩
  rw [vsprintfLoop_percent, hw, Option.bind_some, List.drop_left]

/-- Two formats that agree where it is read, and are read in front. -/
theorem exists_append {p : ℕ → Prop} (u t : List UInt8)
    (hagree : ∀ i, p i → fmt'[i]? = (u ++ t)[i]?) (hfront : ∀ i < u.length, p i) :
    ∃ t', fmt' = u ++ t' ∧ ∀ i, p (u.length + i) → t'[i]? = t[i]? := by
  have htake : fmt'.take u.length = u := by
    refine List.ext_getElem? fun i => ?_
    by_cases hi : i < u.length
    · rw [List.getElem?_take_of_lt hi, hagree i (hfront i hi), List.getElem?_append_left hi]
    · rw [List.getElem?_eq_none (Nat.not_lt.mp hi),
        List.getElem?_eq_none (List.length_take_le _ _ |>.trans (Nat.not_lt.mp hi))]
  refine ⟨fmt'.drop u.length, ?_, fun i hi => ?_⟩
  · conv_lhs => rw [← List.take_append_drop u.length fmt', htake]
  · rw [List.getElem?_drop, hagree _ hi, List.getElem?_append_right (Nat.le_add_right _ _),
      Nat.add_sub_cancel_left]

/-- **What is not read does not matter**, neither for what is read nor for what is written. -/
theorem vsprintfLoop_congr (h : formatReads fmt pos = some reads)
    (hagree : ∀ i, pos + i ∈ reads → fmt'[i]? = fmt[i]?) :
    formatReads fmt' pos = some reads ∧
      ∀ args s, vsprintfLoop fmt' args s = vsprintfLoop fmt args s := by
  induction hn : fmt.length using Nat.strong_induction_on generalizing fmt fmt' pos reads with
  | _ n ih =>
    rcases format_cases fmt with rfl | ⟨c, t, rfl, hc⟩ | ⟨ds, rfl, hds⟩ | ⟨ds, c, t, rfl, hds, hc⟩
    · rw [formatReads] at h
      cases h
    · by_cases hzero : c = 0
      · subst hzero
        obtain rfl := Option.some.inj (formatReads_nul.symm.trans h)
        obtain ⟨t', rfl, -⟩ := exists_append [0] t hagree (by simp)
        refine ⟨formatReads_nul, fun args s => ?_⟩
        rw [List.singleton_append, vsprintfLoop, vsprintfLoop, if_pos rfl, if_pos rfl]
      · rw [formatReads_lit hzero hc] at h
        obtain ⟨reads, hreads, rfl⟩ := Option.map_eq_some_iff.mp h
        obtain ⟨t', rfl, hagree'⟩ := exists_append [c] t hagree (by simp)
        obtain ⟨hreads', hloop⟩ := ih t.length (by simp [← hn]) hreads
          (fun i hi => hagree' i (List.mem_cons_of_mem _ (Nat.add_assoc pos 1 i ▸ hi))) rfl
        rw [List.singleton_append, formatReads_lit hzero hc, hreads']
        refine ⟨rfl, fun args s => ?_⟩
        rw [vsprintfLoop, vsprintfLoop, if_neg hzero, if_neg hzero, if_pos hc, if_pos hc]
        exact congrArg _ (funext fun s => hloop args s)
    · rw [formatReads_digits hds] at h
      cases h
    · rw [formatReads_conv hds hc] at h
      obtain ⟨reads, hreads, rfl⟩ := Option.map_eq_some_iff.mp h
      have hlen : (0x25 :: (ds ++ [c])).length = 1 + ds.length + 1 := by simp [Nat.add_comm]
      rw [show 0x25 :: (ds ++ c :: t) = 0x25 :: (ds ++ [c]) ++ t by simp] at hagree
      obtain ⟨t', rfl, hagree'⟩ := exists_append (0x25 :: (ds ++ [c])) t hagree fun i hi => by
        simp only [List.mem_append, List.mem_cons, List.mem_range'_1]
        omega
      obtain ⟨hreads', hloop⟩ := ih t.length (by simp [← hn]; omega) hreads
        (fun i hi => hagree' i (List.mem_append_right _ (by
          rw [hlen]
          rwa [show pos + (1 + ds.length + 1 + i) = pos + 1 + ds.length + 1 + i by omega])))
        rfl
      rw [List.cons_append, List.append_assoc, List.singleton_append, formatReads_conv hds hc,
        hreads']
      refine ⟨rfl, fun args s => ?_⟩
      obtain ⟨w, hw⟩ := vsprintfLoop_conv hds hc
      rw [hw, hw]
      exact congrArg _ (funext fun r => hloop r.1 r.2)

/-- Every letter has arguments, and takes them from the front. -/
theorem exists_args (letter : UInt8) (width : ℤ) :
    ∃ pre f, ∀ args, Field.read letter width (pre ++ args) = some (f, args) := by
  have hnil : strnlen [0] 1024 = some 0 := by decide
  unfold Field.read
  split_ifs
  · refine ⟨[.str [0]], .str width [], fun args => ?_⟩
    simp [vaArg, VaArg.toStr, hnil]
  · exact ⟨[.int 0], .chr width 0, fun args => rfl⟩
  · exact ⟨[.int 0], .dec width 0, fun args => rfl⟩
  · exact ⟨[.int 0], .hex width 0 0, fun args => rfl⟩
  · exact ⟨[.int 0], .hex width 0 1, fun args => rfl⟩
  · exact ⟨[.ulong 0], .ptr width 0, fun args => rfl⟩
  · exact ⟨[], .none, fun args => rfl⟩

/-- **The end.** The loop comes to a NUL just when there are arguments for the format. -/
theorem formatReads_isSome_iff (fmt : List UInt8) (pos : ℕ) :
    (formatReads fmt pos).isSome ↔ ∃ args fields, Formats fmt args fields := by
  constructor
  · rw [Option.isSome_iff_exists]
    rintro ⟨reads, h⟩
    induction hn : fmt.length using Nat.strong_induction_on generalizing fmt pos reads with
    | _ n ih =>
      rcases format_cases fmt with rfl | ⟨c, t, rfl, hc⟩ | ⟨ds, rfl, hds⟩ | ⟨ds, c, t, rfl, hds, hc⟩
      · rw [formatReads] at h
        cases h
      · by_cases hzero : c = 0
        · exact ⟨[], [], hzero ▸ .nul t []⟩
        · rw [formatReads_lit hzero hc] at h
          obtain ⟨reads, hreads, rfl⟩ := Option.map_eq_some_iff.mp h
          obtain ⟨args, fields, hfields⟩ := ih t.length (by simp [← hn]) t _ _ hreads rfl
          exact ⟨args, _, .lit hzero hc hfields⟩
      · rw [formatReads_digits hds] at h
        cases h
      · rw [formatReads_conv hds hc] at h
        obtain ⟨reads, hreads, rfl⟩ := Option.map_eq_some_iff.mp h
        obtain ⟨args, fields, hfields⟩ := ih t.length (by simp [← hn]; omega) t _ _ hreads rfl
        obtain ⟨w, hw⟩ := parseWidth_digits hds hc
        obtain ⟨pre, f, hread⟩ := exists_args c w
        exact ⟨pre ++ args, _, .conv (hw t) List.drop_left (hread args) hfields⟩
  · rintro ⟨args, fields, h⟩
    induction h generalizing pos with
    | nul fmt args =>
      rw [formatReads_nul]
      rfl
    | lit hzero hpercent hrest ih =>
      rw [formatReads_lit hzero hpercent, Option.isSome_map]
      exact ih _
    | conv hwidth hletter hread hrest ih =>
      rw [formatReads_percent, hwidth, Option.bind_some, hletter]
      dsimp only
      rw [Option.isSome_map]
      exact ih _

/-! ### Formats that do not end within a conversion -/

theorem complete_digits (hds : ∀ c ∈ ds, isDigit c) (t : List UInt8) :
    complete true (ds ++ t) = complete true t := by
  induction ds with
  | nil => rfl
  | cons c ds ih =>
    obtain ⟨hc, hds⟩ := List.forall_mem_cons.mp hds
    rw [List.cons_append, complete, hc, ih hds]

/-- Behind the letter of a conversion. -/
theorem complete_conv (hds : ∀ c ∈ ds, isDigit c) (hc : ¬ isDigit c) (t : List UInt8) :
    complete false (0x25 :: (ds ++ c :: t)) = complete false t := by
  rw [complete, show ((0x25 : UInt8) == 0x25) = true from rfl, complete_digits hds, complete,
    Bool.eq_false_iff.mpr hc]

theorem complete_lit (hc : c ≠ 0x25) (t : List UInt8) :
    complete false (c :: t) = complete false t := by
  rw [complete, beq_false_of_ne hc]

theorem not_isDigit_zero : ¬ isDigit 0 := by decide

/-- A complete format is read up to its NUL. -/
theorem formatReads_of_complete (hs : (0 : UInt8) ∉ s) (h : complete false s) (rest : List UInt8)
    (pos : ℕ) : ∃ reads, formatReads (s ++ 0 :: rest) pos = some reads ∧
      ∀ i ∈ reads, i ≤ pos + s.length := by
  induction hn : s.length using Nat.strong_induction_on generalizing s pos with
  | _ n ih =>
    rcases format_cases s with rfl | ⟨c, t, rfl, hc⟩ | ⟨ds, rfl, hds⟩ | ⟨ds, c, t, rfl, hds, hc⟩
    · exact ⟨[pos], formatReads_nul, fun i hi => by simp at hi; omega⟩
    · rw [complete_lit hc] at h
      obtain ⟨hzero, hs⟩ := not_or.mp (mt List.mem_cons.mpr hs)
      obtain ⟨reads, hreads, hle⟩ := ih t.length (by simp [← hn]) hs h (pos + 1) rfl
      refine ⟨pos :: reads, ?_, fun i hi => ?_⟩
      · rw [List.cons_append, formatReads_lit (Ne.symm hzero) hc, hreads]
        rfl
      · rw [List.length_cons] at hn
        rcases List.mem_cons.mp hi with rfl | hi
        · exact Nat.le_add_right _ _
        · have hi' := hle i hi
          omega
    · have hend := complete_digits hds []
      rw [List.append_nil] at hend
      rw [complete, show ((0x25 : UInt8) == 0x25) = true from rfl, hend] at h
      cases h
    · rw [complete_conv hds hc] at h
      have ht : (0 : UInt8) ∉ t := fun hmem => hs (by simp [hmem])
      have hlen : n = 1 + ds.length + 1 + t.length := by
        simp only [← hn, List.length_cons, List.length_append]
        omega
      obtain ⟨reads, hreads, hle⟩ := ih t.length (by omega) ht h (pos + 1 + ds.length + 1) rfl
      refine ⟨pos :: List.range' (pos + 1) (ds.length + 1) ++ [pos + 1 + ds.length] ++ reads, ?_,
        fun i hi => ?_⟩
      · rw [List.cons_append, List.append_assoc, List.cons_append, formatReads_conv hds hc, hreads]
        rfl
      · rcases List.mem_append.mp hi with hi | hi
        · simp only [List.mem_append, List.mem_cons, List.mem_range'_1, List.not_mem_nil,
            or_false] at hi
          omega
        · have hi' := hle i hi
          omega

/-- With a format that ends within a conversion, the loop steps over the NUL. -/
theorem formatReads_of_not_complete (hs : (0 : UInt8) ∉ s) (h : complete false s = false)
    (pos : ℕ) : formatReads (s ++ [0]) pos = none := by
  induction hn : s.length using Nat.strong_induction_on generalizing s pos with
  | _ n ih =>
    rcases format_cases s with rfl | ⟨c, t, rfl, hc⟩ | ⟨ds, rfl, hds⟩ | ⟨ds, c, t, rfl, hds, hc⟩
    · cases h
    · rw [complete_lit hc] at h
      obtain ⟨hzero, hs⟩ := not_or.mp (mt List.mem_cons.mpr hs)
      rw [List.cons_append, formatReads_lit (Ne.symm hzero) hc,
        ih t.length (by simp [← hn]) hs h _ rfl]
      rfl
    · rw [List.cons_append, formatReads_conv hds not_isDigit_zero, formatReads]
      rfl
    · rw [complete_conv hds hc] at h
      have ht : (0 : UInt8) ∉ t := fun hmem => hs (by simp [hmem])
      rw [List.cons_append, List.append_assoc, List.cons_append, formatReads_conv hds hc,
        ih t.length (by simp [← hn]; omega) ht h _ rfl]
      rfl

/-- **Nothing behind the NUL is read** just when the format does not end within a conversion. -/
theorem readsInside_iff (s : List UInt8) (hs : (0 : UInt8) ∉ s) :
    ReadsInside s ↔ complete false s := by
  constructor
  · intro h
    by_contra hnot
    obtain ⟨reads, hreads, -⟩ := h []
    rw [formatReads_of_not_complete hs (Bool.eq_false_iff.mpr hnot)] at hreads
    cases hreads
  · intro h rest
    obtain ⟨reads, hreads, hle⟩ := formatReads_of_complete hs h rest 0
    rw [Nat.zero_add] at hle
    refine ⟨reads, hreads, hle, fun args st => ?_⟩
    refine ((vsprintfLoop_congr hreads fun i hi => ?_).2 args st).symm
    have hi' := hle i (Nat.zero_add i ▸ hi)
    rcases Nat.lt_or_eq_of_le hi' with hlt | rfl
    · rw [List.getElem?_append_left hlt, List.getElem?_append_left hlt]
    · rw [List.getElem?_append_right le_rfl, List.getElem?_append_right le_rfl, Nat.sub_self]
      rfl

/-- A format with a width. -/
theorem readsInside_iff_width : ReadsInside [0x25, 0x35, 0x64] :=
  (readsInside_iff [0x25, 0x35, 0x64] (by decide)).mpr (by decide)

/-- The format `%`. -/
theorem not_readsInside : ¬ ∀ s : List UInt8, (0 : UInt8) ∉ s → ReadsInside s := by
  intro h
  obtain ⟨reads, hreads, -⟩ := h [0x25] (by decide) []
  rw [formatReads_of_not_complete (by decide) (by decide)] at hreads
  cases hreads

end GoofyOs
