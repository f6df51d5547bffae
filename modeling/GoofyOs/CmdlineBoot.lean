import GoofyOs.Cmdline

/-!
# The command line at boot

`parse_cmdline` leaves `kernel_cmdline` as it is when the boot loader passed no command line, or one
of more than 512 characters. Its argument is a null pointer then, which `find_cmdline` copies from.
`cmdline_contains` passes the result of the search to `kfree`, also when it is a null pointer.

A line of 512 characters is accepted, and with the NUL a single word of this length does not fit
the buffers.

What has no result here is a null pointer that is followed, or a store past the end of a buffer.
`kzalloc` always has memory, which is zeroed.

## Main definitions

* `parseCmdline`, `cmdlineContains` — the code
* `currWordWrites`, `keyWrites` — the indices that are written in the two buffers
* `Answers` — what is asked of `cmdline_contains`

## Main results

* `wordsFit_iff` — the accepted lines whose words fit
* `currWordWrites_iff` — `curr_word` is written inside just when `build_args` has a result
* `cmdline_inside_iff` — the lines for which the buffers are not overrun
* `cmdlineContains_iff` — the lines and queries for which `cmdline_contains` answers
-/

namespace GoofyOs

/-- `parse_cmdline`, with the command line that the boot loader passed, if it did. -/
def parseCmdline (k : CmdlineAlloc) (response : Option (List UInt8)) (currWord : List UInt8) :
    Option (List Cmdline) :=
  match response with
  | none => some [⟨none, none⟩]
  | some cmdline => do
    let len ← strlen cmdline
    if len > maxCmdlineCommand then some [⟨none, none⟩] else buildArgs k cmdline currWord

/-- `kfree`, for a string. There is no slab around a null pointer. -/
def kfreeChars : Option (List UInt8) → Option Unit
  | none => none
  | some _ => some ()

/-- `cmdline_contains`. -/
def cmdlineContains (k : CmdlineAlloc) (nodes : List Cmdline) (query : List UInt8) (fuel : ℕ)
    (key : List UInt8) : Option Bool := do
  let res ← findCmdline k nodes query fuel key (some 0)
  let contains := res.isSome
  kfreeChars res
  some contains

/-- The indices of `curr_word` that `build_args` writes, on what is left of the command line. -/
def currWordWrites : List UInt8 → ℕ → List ℕ
  | [], _ => []
  | c :: cmd, currLen =>
    if c = 0 then [currLen]
    else if c = 0x20 then currLen :: currWordWrites cmd 0
    else currLen :: currWordWrites cmd (currLen + 1)

/-- The indices of `key` that are written for an argument: those of its characters and its NUL, and
the one of its first `=`. -/
def argWrites (arg : List UInt8) : List ℕ :=
  (match strlen arg with
    | none => []
    | some len => List.range (len + 1)) ++
  match valIndex arg with
    | none => []
    | some i => if arg[i]? = some 0x3d then [i] else []

/-- The indices of `key` that `find_cmdline` writes. -/
def keyWrites (k : CmdlineAlloc) (nodes : List Cmdline) (query : List UInt8) :
    ℕ → List UInt8 → Option ℕ → List ℕ
  | fuel + 1, key, some curr =>
    match nodes[curr]? with
    | some ⟨some arg, next⟩ =>
      argWrites arg ++
        match findStep k query key ⟨some arg, next⟩ with
        | some (key, none) => keyWrites k nodes query fuel key next
        | _ => []
    | _ => []
  | _, _, _ => []

/-- The words that were parsed. -/
def bootWords : Option (List UInt8) → List (List UInt8)
  | none => []
  | some line => if line.length ≤ maxCmdlineCommand then line.splitOn 0x20 else []

/-- Once the command line is parsed, `cmdline_contains` returns, and says whether some word has the
key. `currWord` and `key` are what the stack holds. -/
def Answers (k : CmdlineAlloc) (response : Option (List UInt8))
    (query rest rest' currWord key : List UInt8) : Prop :=
  ∃ nodes, parseCmdline k (response.map (· ++ 0 :: rest)) currWord = some nodes ∧
    ∀ fuel ≥ nodes.length, cmdlineContains k nodes (query ++ 0 :: rest') fuel key =
      some (decide (∃ w ∈ bootWords response, wordKey w = query))

variable {k : CmdlineAlloc} {line w arg query queryBuf key currWord rest rest' : List UInt8}
  {nodes : List Cmdline} {curr : Option ℕ} {fuel : ℕ}

/-! ### The buffers -/

/-- The words of a line that is shorter than the buffers. -/
theorem wordsFit_of_length_lt (h : line.length < maxCmdlineCommand) : WordsFit line :=
  fun _ hw => Nat.lt_of_le_of_lt (sublist_of_mem_splitOn hw).length_le h

/-- **The words of an accepted line** fit the buffers, unless it is one word of 512 characters. -/
theorem wordsFit_iff (hlen : line.length ≤ maxCmdlineCommand) :
    WordsFit line ↔ line.length < maxCmdlineCommand ∨ 0x20 ∈ line := by
  constructor
  · intro h
    by_contra hnot
    obtain ⟨hlong, hspace⟩ := not_or.mp hnot
    exact hlong ((wordsFit_of_notMem hspace).mp h)
  · rintro (h | h)
    · exact wordsFit_of_length_lt h
    · obtain ⟨w, line', rfl, hw⟩ := List.eq_append_cons_of_mem h
      rw [List.length_append, List.length_cons] at hlen
      exact (wordsFit_append_cons hw).mpr
        ⟨by omega, wordsFit_of_length_lt (Nat.lt_of_lt_of_le (by omega) hlen)⟩

/-- **`curr_word`**, from the middle of a word on. -/
theorem currWordWrites_iff (rest : List UInt8) (hw : (0x20 : UInt8) ∉ w)
    (hzero : (0 : UInt8) ∉ line) :
    (∀ i ∈ currWordWrites (line ++ 0 :: rest) w.length, i < maxCmdlineCommand) ↔
      WordsFit (w ++ line) := by
  induction line generalizing w with
  | nil =>
    rw [List.nil_append, currWordWrites, if_pos rfl, List.forall_mem_singleton, List.append_nil,
      wordsFit_of_notMem hw]
  | cons c line ih =>
    obtain ⟨hc, hline⟩ := not_or.mp (mt List.mem_cons.mpr hzero)
    rw [List.cons_append, currWordWrites, if_neg (Ne.symm hc)]
    by_cases hspace : c = 0x20
    · subst hspace
      have hrest := ih (w := []) List.not_mem_nil hline
      rw [List.nil_append] at hrest
      rw [if_pos rfl, List.forall_mem_cons, wordsFit_append_cons hw, ← hrest]
      rfl
    · have hword : (0x20 : UInt8) ∉ w ++ [c] := by
        simp only [List.mem_append, List.mem_singleton, not_or]
        exact ⟨hw, Ne.symm hspace⟩
      have hrest := ih hword hline
      rw [List.append_assoc, List.singleton_append, List.length_append,
        List.length_singleton] at hrest
      rw [if_neg hspace, List.forall_mem_cons, hrest, and_iff_right_iff_imp]
      intro hfit
      by_contra hlong
      exact not_wordsFit_append hw (Nat.not_lt.mp hlong) hfit

theorem strlen_lt {n : ℕ} (h : strlen arg = some n) : n < arg.length := by
  induction arg generalizing n with
  | nil => cases h
  | cons c arg ih =>
    rw [strlen] at h
    split at h
    · obtain rfl := Option.some.inj h
      exact Nat.succ_pos _
    · obtain ⟨m, hm, rfl⟩ := Option.map_eq_some_iff.mp h
      exact Nat.succ_lt_succ (ih hm)

/-- Nothing is written past the size of the argument. -/
theorem lt_of_mem_argWrites {i : ℕ} (h : i ∈ argWrites arg) : i < arg.length := by
  rcases List.mem_append.mp h with h | h
  · cases hlen : strlen arg with
    | none =>
      rw [hlen] at h
      exact absurd h List.not_mem_nil
    | some n =>
      rw [hlen] at h
      have hlt := strlen_lt hlen
      have hi := List.mem_range.mp h
      omega
  · cases hidx : valIndex arg with
    | none =>
      rw [hidx] at h
      exact absurd h List.not_mem_nil
    | some j =>
      simp only [hidx] at h
      split at h
      · next hget =>
        obtain rfl := List.mem_singleton.mp h
        exact (List.getElem?_eq_some_iff.mp hget).1
      · exact absurd h List.not_mem_nil

/-- **`key`**, when no argument is larger than it. -/
theorem lt_of_mem_keyWrites
    (hargs : ∀ node ∈ nodes, ∀ arg ∈ node.arg, arg.length ≤ maxCmdlineCommand) {i : ℕ}
    (h : i ∈ keyWrites k nodes query fuel key curr) : i < maxCmdlineCommand := by
  induction fuel generalizing key curr with
  | zero => exact absurd h List.not_mem_nil
  | succ fuel ih =>
    cases curr with
    | none => exact absurd h List.not_mem_nil
    | some curr =>
      rw [keyWrites] at h
      split at h
      · next arg next hget =>
        rcases List.mem_append.mp h with h | h
        · exact Nat.lt_of_lt_of_le (lt_of_mem_argWrites h)
            (hargs _ (List.mem_of_getElem? hget) arg rfl)
        · split at h
          · exact ih h
          · exact absurd h List.not_mem_nil
      · exact absurd h List.not_mem_nil

theorem mem_argNodes {words : List (List UInt8)} {node : Cmdline} (h : node ∈ argNodes words) :
    ∃ w ∈ words, node.arg = some (w ++ [0]) := by
  obtain ⟨i, hi, rfl⟩ := List.mem_mapIdx.mp h
  exact ⟨words[i], List.getElem_mem hi, rfl⟩

/-- **The buffers of the command line.** For a line that `parse_cmdline` passes on, `build_args`
writes `curr_word` only inside, and `find_cmdline` writes `key` only inside, just when the line is
not a single word of 512 characters. -/
theorem cmdline_inside_iff (line rest : List UInt8) {currWord : List UInt8} (hk : k.Zeroed)
    (hline : (0 : UInt8) ∉ line) (hlen : line.length ≤ maxCmdlineCommand)
    (hword : currWord.length = maxCmdlineCommand) :
    ((∀ i ∈ currWordWrites (line ++ 0 :: rest) 0, i < maxCmdlineCommand) ∧
      ∀ nodes, buildArgs k (line ++ 0 :: rest) currWord = some nodes →
        ∀ query fuel key, ∀ i ∈ keyWrites k nodes query fuel key (some 0), i < maxCmdlineCommand) ↔
    line.length < maxCmdlineCommand ∨ 0x20 ∈ line := by
  have hwrites := currWordWrites_iff (w := []) rest List.not_mem_nil hline
  rw [List.nil_append, List.length_nil] at hwrites
  rw [hwrites, ← wordsFit_iff hlen, and_iff_left_iff_imp]
  intro hfit nodes hnodes query fuel key i hi
  rw [buildArgs_eq rest hk hline hword, if_pos hfit] at hnodes
  obtain rfl := Option.some.inj hnodes
  refine lt_of_mem_keyWrites (fun node hnode arg harg => ?_) hi
  obtain ⟨w, hw, heq⟩ := mem_argNodes hnode
  obtain rfl := Option.some.inj (heq.symm.trans harg)
  rw [List.length_append]
  exact hfit w hw

/-- The line `a b`. -/
theorem cmdline_inside_iff_ab :
    (∀ i ∈ currWordWrites ([0x61, 0x20, 0x62] ++ 0 :: []) 0, i < maxCmdlineCommand) ∧
      ∀ nodes, buildArgs zeroAlloc ([0x61, 0x20, 0x62] ++ 0 :: []) (List.replicate 512 0) =
          some nodes →
        ∀ query fuel key, ∀ i ∈ keyWrites zeroAlloc nodes query fuel key (some 0),
          i < maxCmdlineCommand :=
  (cmdline_inside_iff [0x61, 0x20, 0x62] [] zeroed_zeroAlloc (by decide) (by decide)
    List.length_replicate).mpr (by decide)

/-- A word of 512 characters. -/
def longWord : List UInt8 := List.replicate 512 0x61

theorem length_longWord : longWord.length = 512 := List.length_replicate

theorem zero_notMem_longWord : (0 : UInt8) ∉ longWord := by
  rw [longWord, List.mem_replicate]
  decide

/-- Its NUL is written past the end of `curr_word`. -/
theorem not_cmdline_inside : ¬ ∀ line rest : List UInt8, (0 : UInt8) ∉ line →
    line.length ≤ maxCmdlineCommand →
      ∀ i ∈ currWordWrites (line ++ 0 :: rest) 0, i < maxCmdlineCommand := by
  intro h
  have hspace : (0x20 : UInt8) ∉ longWord := by
    rw [longWord, List.mem_replicate]
    decide
  have hwrites := h longWord [] zero_notMem_longWord length_longWord.le
  have hfit := (currWordWrites_iff (w := []) _ List.not_mem_nil zero_notMem_longWord).mp hwrites
  rw [List.nil_append, wordsFit_of_notMem hspace, length_longWord] at hfit
  exact absurd hfit (Nat.lt_irrefl 512)

/-! ### The answer -/

/-- An argument that was never set. -/
theorem findCmdline_unset : findCmdline k [⟨none, none⟩] queryBuf fuel key (some 0) = none := by
  cases fuel with
  | zero => rfl
  | succ fuel => rfl

theorem cmdlineContains_unset : cmdlineContains k [⟨none, none⟩] queryBuf fuel key = none := by
  rw [cmdlineContains, findCmdline_unset]
  rfl

/-- The result of the search is returned, if there is one. -/
theorem cmdlineContains_of_find {res : Option (List UInt8)}
    (h : findCmdline k nodes queryBuf fuel key (some 0) = some res) :
    cmdlineContains k nodes queryBuf fuel key = if res.isSome then some true else none := by
  rw [cmdlineContains, h]
  cases res with
  | none => rfl
  | some val => rfl

/-- The search over the words of a line. -/
theorem findCmdline_argNodes (hk : k.Zeroed) (hline : (0 : UInt8) ∉ line)
    (hfit : WordsFit line) (hkey : key.length = maxCmdlineCommand) (hquery : (0 : UInt8) ∉ query)
    (hfuel : (argNodes (line.splitOn 0x20)).length ≤ fuel) :
    findCmdline k (argNodes (line.splitOn 0x20)) (query ++ 0 :: rest') fuel key (some 0) =
      some (((line.splitOn 0x20).find? (wordKey · = query)).map (wordVal · ++ [0])) := by
  have hws : ∀ w ∈ line.splitOn 0x20, (0 : UInt8) ∉ w ∧ w.length < maxCmdlineCommand :=
    fun w hw => ⟨fun hmem => hline ((sublist_of_mem_splitOn hw).subset hmem), hfit w hw⟩
  have hpos : 0 < (line.splitOn 0x20).length :=
    List.length_pos_iff.mpr (List.splitOn_ne_nil _ _)
  rw [argNodes, List.length_mapIdx] at hfuel
  have hfind := findCmdline_from hk hws hkey ⟨hquery, rest', rfl⟩ (i := 0)
    (show (line.splitOn 0x20).length ≤ 0 + fuel by omega)
  rwa [if_pos hpos, List.drop_zero] at hfind

/-- Without a command line there is no answer. -/
theorem not_answers_none : ¬ Answers k none query rest rest' currWord key := by
  rintro ⟨nodes, hparse, hall⟩
  obtain rfl := Option.some.inj hparse
  have hcontains := hall 1 le_rfl
  rw [cmdlineContains_unset] at hcontains
  cases hcontains

/-- The answer for a line. -/
theorem answers_some_iff (hk : k.Zeroed) (hline : (0 : UInt8) ∉ line) (hquery : (0 : UInt8) ∉ query)
    (hword : currWord.length = maxCmdlineCommand) (hkey : key.length = maxCmdlineCommand) :
    Answers k (some line) query rest rest' currWord key ↔ line.length ≤ maxCmdlineCommand ∧
      WordsFit line ∧ ∃ w ∈ line.splitOn 0x20, wordKey w = query := by
  have hstrlen : strlen (line ++ 0 :: rest) = some line.length :=
    (CStr.of_append hline).strlen_eq
  have hparse : parseCmdline k (some (line ++ 0 :: rest)) currWord =
      if line.length > maxCmdlineCommand then some [⟨none, none⟩]
      else buildArgs k (line ++ 0 :: rest) currWord := by
    rw [parseCmdline, hstrlen]
    rfl
  rw [Answers, Option.map_some, hparse]
  by_cases hlen : line.length ≤ maxCmdlineCommand
  · rw [if_neg (Nat.not_lt.mpr hlen), buildArgs_eq rest hk hline hword, bootWords, if_pos hlen,
      and_iff_right hlen]
    by_cases hfit : WordsFit line
    · simp only [if_pos hfit, Option.some.injEq, exists_eq_left', and_iff_right hfit]
      constructor
      · intro h
        have hcontains := h _ le_rfl
        rw [cmdlineContains_of_find (findCmdline_argNodes hk hline hfit hkey hquery le_rfl)]
          at hcontains
        split at hcontains
        · exact of_decide_eq_true (Option.some.inj hcontains).symm
        · cases hcontains
      · intro h fuel hfuel
        rw [cmdlineContains_of_find (findCmdline_argNodes hk hline hfit hkey hquery hfuel),
          decide_eq_true h, if_pos]
        simpa using h
    · simp [hfit]
  · -- the list is as it was
    rw [if_pos (Nat.lt_of_not_le hlen)]
    refine iff_of_false ?_ fun h => hlen h.1
    rintro ⟨nodes, hnodes, hall⟩
    obtain rfl := Option.some.inj hnodes
    have hcontains := hall 1 le_rfl
    rw [cmdlineContains_unset] at hcontains
    cases hcontains

/-- **`cmdline_contains`** returns, and says whether some word has the key, just when a line was
passed that is accepted and is not a single word of 512 characters, and some word has the key. -/
theorem cmdlineContains_iff (response : Option (List UInt8)) (query rest rest' : List UInt8)
    {currWord key : List UInt8} (hk : k.Zeroed) (hline : ∀ line ∈ response, (0 : UInt8) ∉ line)
    (hquery : (0 : UInt8) ∉ query) (hword : currWord.length = maxCmdlineCommand)
    (hkey : key.length = maxCmdlineCommand) :
    Answers k response query rest rest' currWord key ↔
      ∃ line, response = some line ∧ line.length ≤ maxCmdlineCommand ∧
        (line.length < maxCmdlineCommand ∨ 0x20 ∈ line) ∧
        ∃ w ∈ line.splitOn 0x20, wordKey w = query := by
  cases response with
  | none =>
    refine iff_of_false not_answers_none ?_
    rintro ⟨line, hsome, -⟩
    cases hsome
  | some line =>
    simp only [Option.some.injEq, exists_eq_left']
    rw [answers_some_iff hk (hline line rfl) hquery hword hkey]
    refine and_congr_right fun hlen => ?_
    rw [wordsFit_iff hlen]

/-- The line `initrd` has the key that `kmain` asks for. -/
theorem cmdlineContains_iff_initrd : Answers zeroAlloc (some [105, 110, 105, 116, 114, 100])
    [105, 110, 105, 116, 114, 100] [] [] (List.replicate 512 0) (List.replicate 512 0) :=
  (cmdlineContains_iff _ _ _ _ zeroed_zeroAlloc (by decide) (by decide) List.length_replicate
    List.length_replicate).mpr ⟨_, rfl, by decide⟩

/-- There is no answer without a command line. With the line `a` there is none for the query `b`:
the null pointer that stands for no word is given to `kfree`. -/
theorem not_cmdlineContains :
    ¬ Answers zeroAlloc none [0x62] [] [] (List.replicate 512 0) (List.replicate 512 0) ∧
      ¬ Answers zeroAlloc (some [0x61]) [0x62] [] [] (List.replicate 512 0)
        (List.replicate 512 0) := by
  have hsize : (List.replicate 512 (0 : UInt8)).length = maxCmdlineCommand := List.length_replicate
  refine ⟨not_answers_none, ?_⟩
  rw [answers_some_iff zeroed_zeroAlloc (by decide) (by decide) hsize hsize]
  decide

end GoofyOs
