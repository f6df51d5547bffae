import GoofyOs.ForMathlib.Pieces
import GoofyOs.Libk
import Mathlib.Data.List.DropRight

/-!
# The kernel command line

`build_args` splits the command line at every space and appends one node to the list
`kernel_cmdline` for each word. `find_cmdline` copies every argument into a buffer of its own, cuts
it off at the first `=`, and compares the key that is left with the query; the value is read from
where the key ends in the argument.

`kzalloc` is declared and nowhere defined. What it returns is given.

## Main definitions

* `Cmdline`, `buildArgs` — the list and how it is built
* `CmdlineAlloc`, `CmdlineAlloc.Zeroed` — what `kzalloc` returns
* `makeKey`, `makeVal`, `findCmdline` — the lookup
* `wordKey`, `wordVal` — the two parts of a word
* `WordsFit` — the words are shorter than the buffers

## Main results

* `buildArgs_eq` — the list holds the words
* `findCmdline_eq` — the lookup over the words
* `cmdline_lookup` — both together
-/

namespace GoofyOs

/-- `MAX_CMDLINE_COMMAND`. -/
def maxCmdlineCommand : ℕ := 512

/-- `struct cmdline`. Nodes are numbered in the order of their allocation, and number 0 is
`kernel_cmdline`. -/
structure Cmdline where
  arg : Option (List UInt8)
  next : Option ℕ
  deriving DecidableEq

/-- What `kzalloc` returns, for a string of some size and for a `struct cmdline`. -/
structure CmdlineAlloc where
  chars : ℕ → List UInt8
  cmdline : Cmdline

/-- Memory of the size that was asked for, all of it zero. -/
structure CmdlineAlloc.Zeroed (k : CmdlineAlloc) : Prop where
  chars : ∀ size, k.chars size = List.replicate size 0
  cmdline : k.cmdline = ⟨none, none⟩

/-! ### The code -/

section Code

variable (k : CmdlineAlloc)

/-- The variables of `build_args`. -/
structure BuildArgs where
  nodes : List Cmdline
  currList : ℕ
  currWord : List UInt8
  currLen : ℕ

/-- The word is ended and copied into the current node. -/
def BuildArgs.storeArg (s : BuildArgs) : Option BuildArgs := do
  let currWord ← setChar s.currWord s.currLen 0
  let arg ← strcpy (k.chars (s.currLen + 1)) currWord
  let node ← s.nodes[s.currList]?
  some { s with currWord, nodes := s.nodes.set s.currList { node with arg := some arg } }

/-- The list gets another node. -/
def BuildArgs.nextNode (s : BuildArgs) : Option BuildArgs := do
  let node ← s.nodes[s.currList]?
  some { s with
    nodes := s.nodes.set s.currList { node with next := some s.nodes.length } ++ [k.cmdline]
    currList := s.nodes.length
    currLen := 0 }

/-- `build_args`, on what is left of the command line. -/
def BuildArgs.run : List UInt8 → BuildArgs → Option (List Cmdline)
  | [], _ => none
  | c :: cmd, s =>
    if c = 0 then (s.storeArg k).map BuildArgs.nodes
    else if c = 0x20 then do
      let s ← s.storeArg k
      let s ← s.nextNode k
      run cmd s
    else do
      let currWord ← setChar s.currWord s.currLen c
      run cmd { s with currWord, currLen := s.currLen + 1 }

/-- `build_args`, from a zeroed `kernel_cmdline`. `currWord` is what the stack holds. -/
def buildArgs (cmd currWord : List UInt8) : Option (List Cmdline) :=
  BuildArgs.run k cmd ⟨[⟨none, none⟩], 0, currWord, 0⟩

/-- `make_key`. -/
def makeKey : List UInt8 → Option (List UInt8)
  | [] => none
  | c :: current =>
    if c = 0 then some (c :: current)
    else if c = 0x3d then some (0 :: current)
    else (makeKey current).map (c :: ·)

/-- The loop of `make_val`. -/
def valIndex : List UInt8 → Option ℕ
  | [] => none
  | c :: current => if c = 0 ∨ c = 0x3d then some 0 else (valIndex current).map (· + 1)

/-- `make_val`. -/
def makeVal (current : List UInt8) : Option (List UInt8) := do
  let i ← valIndex current
  let c ← current[i]?
  let i := if c = 0x3d then i + 1 else i
  let len ← strlen (current.drop i)
  strcpy (k.chars (len + 1)) (current.drop i)

/-- The body of the loop of `find_cmdline`, without its message: the next contents of `key`, and
what is returned. -/
def findStep (query key : List UInt8) (curr : Cmdline) :
    Option (List UInt8 × Option (List UInt8)) := do
  let arg ← curr.arg
  let key ← strcpy key arg
  let key ← makeKey key
  let diff ← strncmp key query maxCmdlineCommand
  if diff = 0 then
    let keylen ← strlen key
    let val ← makeVal k (arg.drop keylen)
    some (key, some val)
  else some (key, none)

/-- `find_cmdline`, with fuel for its loop. A step without a result ends it without a result. -/
def findCmdline (nodes : List Cmdline) (query : List UInt8) :
    ℕ → List UInt8 → Option ℕ → Option (Option (List UInt8))
  | _, _, none => some none
  | 0, _, some _ => none
  | fuel + 1, key, some curr => do
    let node ← nodes[curr]?
    match ← findStep k query key node with
    | (_, some val) => some (some val)
    | (key, none) => findCmdline nodes query fuel key node.next

end Code

/-! ### Keys and values -/

/-- The part of a word before its first `=`. -/
def wordKey (w : List UInt8) : List UInt8 :=
  w.takeWhile (· ≠ 0x3d)

/-- The part of a word after its first `=`. -/
def wordVal (w : List UInt8) : List UInt8 :=
  (w.dropWhile (· ≠ 0x3d)).tail

/-- Every word of a line is shorter than the buffers it is copied to. -/
def WordsFit (line : List UInt8) : Prop := ∀ w ∈ line.splitOn 0x20, w.length < maxCmdlineCommand

instance (line : List UInt8) : Decidable (WordsFit line) :=
  inferInstanceAs (Decidable (∀ w ∈ line.splitOn (0x20 : UInt8), w.length < maxCmdlineCommand))

section Words

variable {w line : List UInt8} (hw : (0x20 : UInt8) ∉ w)

include hw

theorem wordsFit_of_notMem : WordsFit w ↔ w.length < maxCmdlineCommand := by
  rw [WordsFit, List.splitOn_eq_singleton hw, List.forall_mem_singleton]

theorem wordsFit_append_cons :
    WordsFit (w ++ 0x20 :: line) ↔ w.length < maxCmdlineCommand ∧ WordsFit line := by
  rw [WordsFit, List.splitOn_append_cons_self_of_not_mem hw, List.forall_mem_cons]
  rfl

/-- A word that is too long already. -/
theorem not_wordsFit_append (hlen : maxCmdlineCommand ≤ w.length) : ¬ WordsFit (w ++ line) := by
  obtain ⟨w', ws, hsplit⟩ := List.exists_cons_of_ne_nil (List.splitOn_ne_nil (0x20 : UInt8) line)
  rw [WordsFit, Pieces.splitOn_append_of_notMem hw, hsplit, List.modifyHead_cons]
  intro hfit
  have hlt := hfit _ List.mem_cons_self
  rw [List.length_append] at hlt
  omega

end Words

section Strings

variable {k : CmdlineAlloc} {buf w : List UInt8}

theorem drop_length_wordKey (w : List UInt8) :
    w.drop (wordKey w).length = w.dropWhile (· ≠ 0x3d) := by
  have hsplit : wordKey w ++ w.dropWhile (· ≠ 0x3d) = w := List.takeWhile_append_dropWhile
  calc w.drop (wordKey w).length
      = (wordKey w ++ w.dropWhile (· ≠ 0x3d)).drop (wordKey w).length := by rw [hsplit]
    _ = w.dropWhile (· ≠ 0x3d) := List.drop_left

theorem length_wordKey_le (w : List UInt8) : (wordKey w).length ≤ w.length :=
  (List.takeWhile_prefix _).length_le

/-- **`make_key`** leaves the key of the word. -/
theorem CStr.makeKey (h : CStr buf w) :
    ∃ buf', GoofyOs.makeKey buf = some buf' ∧ CStr buf' (wordKey w) ∧
      buf'.length = buf.length := by
  obtain ⟨hzero, rest, rfl⟩ := h
  induction w with
  | nil => exact ⟨0 :: rest, rfl, .of_append hzero, rfl⟩
  | cons c w ih =>
    obtain ⟨hc, hw⟩ := not_or.mp (mt List.mem_cons.mpr hzero)
    by_cases heq : c = 0x3d
    · subst heq
      exact ⟨0 :: (w ++ 0 :: rest), rfl, ⟨List.not_mem_nil, _, rfl⟩, rfl⟩
    · obtain ⟨buf', hbuf, hstr, hlen⟩ := ih hw
      have hkey : wordKey (c :: w) = c :: wordKey w :=
        List.takeWhile_cons_of_pos (by simpa using heq)
      refine ⟨c :: buf', ?_, ?_, congrArg (· + 1) hlen⟩
      · rw [List.cons_append, GoofyOs.makeKey, if_neg (Ne.symm hc), if_neg heq, hbuf]
        rfl
      · obtain ⟨rest', rfl⟩ := hstr.split
        rw [hkey]
        exact ⟨fun hmem => (List.mem_cons.mp hmem).elim hc hstr.zero_notMem, rest', rfl⟩

/-- The loop of `make_val` stops where the key ends. -/
theorem CStr.valIndex_eq (h : CStr buf w) : valIndex buf = some (wordKey w).length := by
  obtain ⟨hzero, rest, rfl⟩ := h
  induction w with
  | nil => rfl
  | cons c w ih =>
    obtain ⟨hc, hw⟩ := not_or.mp (mt List.mem_cons.mpr hzero)
    by_cases heq : c = 0x3d
    · subst heq
      rfl
    · have hkey : wordKey (c :: w) = c :: wordKey w :=
        List.takeWhile_cons_of_pos (by simpa using heq)
      rw [List.cons_append, valIndex, if_neg (not_or.mpr ⟨Ne.symm hc, heq⟩), ih hw, hkey]
      rfl

/-- A string that is copied to a block of its size. -/
theorem CStr.strcpy_chars (h : CStr buf w) (hk : k.Zeroed) :
    GoofyOs.strcpy (k.chars (w.length + 1)) buf = some (w ++ [0]) := by
  have hlen : (k.chars (w.length + 1)).length = w.length + 1 := by
    rw [hk.chars, List.length_replicate]
  rw [h.strcpy_eq (by omega), List.drop_eq_nil_of_le hlen.le]

/-- The character at which the loop of `make_val` stops, and the string after it. -/
theorem CStr.value (h : CStr buf w) :
    ∃ c, buf[(wordKey w).length]? = some c ∧
      CStr (buf.drop (if c = 0x3d then (wordKey w).length + 1 else (wordKey w).length))
        (wordVal w) := by
  have hdrop := h.drop (length_wordKey_le w)
  rw [drop_length_wordKey] at hdrop
  rw [← List.head?_drop]
  cases hrest : w.dropWhile (· ≠ 0x3d) with
  | nil =>
    rw [hrest] at hdrop
    obtain ⟨rest, heq⟩ := hdrop.split
    refine ⟨0, by rw [heq]; rfl, ?_⟩
    rw [if_neg (by decide), wordVal, hrest]
    exact hdrop
  | cons c v =>
    rw [hrest] at hdrop
    obtain ⟨rest, heq⟩ := hdrop.split
    obtain rfl : c = 0x3d := by
      have hhead := List.head?_dropWhile_not (fun c : UInt8 => c ≠ 0x3d) w
      rw [hrest] at hhead
      simpa using hhead
    refine ⟨0x3d, by rw [heq]; rfl, ?_⟩
    rw [if_pos rfl, wordVal, hrest, ← List.drop_drop]
    exact hdrop.drop (Nat.le_add_left 1 v.length)

/-- **`make_val`** copies the value of the word. -/
theorem CStr.makeVal_eq (h : CStr buf w) (hk : k.Zeroed) :
    makeVal k buf = some (wordVal w ++ [0]) := by
  obtain ⟨c, hc, hval⟩ := h.value
  rw [makeVal, h.valIndex_eq]
  show (buf[(wordKey w).length]?).bind _ = _
  rw [hc]
  show (strlen (buf.drop _)).bind _ = _
  rw [hval.strlen_eq]
  exact hval.strcpy_chars hk

end Strings

/-! ### Building the list -/

/-- The nodes of the list `words`, all of them with a next node. -/
def linkedArgs (words : List (List UInt8)) : List Cmdline :=
  words.mapIdx fun i w => ⟨some (w ++ [0]), some (i + 1)⟩

/-- The nodes of the list `words`. -/
def argNodes (words : List (List UInt8)) : List Cmdline :=
  words.mapIdx fun i w => ⟨some (w ++ [0]), if i + 1 < words.length then some (i + 1) else none⟩

theorem argNodes_concat (words : List (List UInt8)) (w : List UInt8) :
    argNodes (words ++ [w]) = linkedArgs words ++ [⟨some (w ++ [0]), none⟩] := by
  rw [argNodes, List.mapIdx_concat, linkedArgs]
  congr 1
  · rw [List.mapIdx_eq_mapIdx_iff]
    intro i hi
    rw [List.length_append, List.length_singleton, if_pos (Nat.add_lt_add_right hi 1)]
  · simp

namespace BuildArgs

variable {k : CmdlineAlloc} {s : BuildArgs} {words : List (List UInt8)} {w line rest : List UInt8}
  {c : UInt8}

/-- `build_args` has stored `words` and read `w` of the next word. -/
structure Holds (s : BuildArgs) (words : List (List UInt8)) (w : List UInt8) : Prop where
  nodes : s.nodes = linkedArgs words ++ [⟨none, none⟩]
  currList : s.currList = words.length
  currLen : s.currLen = w.length
  take : s.currWord.take w.length = w
  length : s.currWord.length = maxCmdlineCommand
  zero_notMem : (0 : UInt8) ∉ w
  space_notMem : (0x20 : UInt8) ∉ w

/-- The word with a character after it. -/
theorem Holds.set_currWord (h : Holds s words w) (hw : w.length < maxCmdlineCommand) (c : UInt8) :
    setChar s.currWord s.currLen c = some (s.currWord.set w.length c) ∧
      s.currWord.set w.length c = w ++ c :: s.currWord.drop (w.length + 1) := by
  have hlt : w.length < s.currWord.length := h.length ▸ hw
  rw [setChar, h.currLen, if_pos hlt, List.set_eq_take_append_cons_drop, if_pos hlt, h.take]
  exact ⟨rfl, rfl⟩

/-- One more character. -/
theorem Holds.push (h : Holds s words w) (hw : w.length < maxCmdlineCommand) (hc : c ≠ 0)
    (hspace : c ≠ 0x20) :
    ∃ currWord, setChar s.currWord s.currLen c = some currWord ∧
      Holds { s with currWord, currLen := s.currLen + 1 } words (w ++ [c]) := by
  obtain ⟨hset, heq⟩ := h.set_currWord hw c
  refine ⟨_, hset, h.nodes, h.currList, ?_, ?_, ?_, ?_, ?_⟩
  · rw [List.length_append, ← h.currLen]
    rfl
  · show (s.currWord.set w.length c).take _ = _
    rw [heq, List.append_cons w c (s.currWord.drop (w.length + 1)), List.take_left]
  · exact List.length_set.trans h.length
  · intro hmem
    rcases List.mem_append.mp hmem with hmem | hmem
    · exact h.zero_notMem hmem
    · exact hc (List.mem_singleton.mp hmem).symm
  · intro hmem
    rcases List.mem_append.mp hmem with hmem | hmem
    · exact h.space_notMem hmem
    · exact hspace (List.mem_singleton.mp hmem).symm

/-- The word is stored in the last node. -/
theorem Holds.storeArg (h : Holds s words w) (hk : k.Zeroed) (hw : w.length < maxCmdlineCommand) :
    ∃ currWord, currWord.length = maxCmdlineCommand ∧ s.storeArg k = some { s with
      currWord
      nodes := linkedArgs words ++ [⟨some (w ++ [0]), none⟩] } := by
  obtain ⟨hset, heq⟩ := h.set_currWord hw 0
  have hstr : CStr (s.currWord.set w.length 0) w := ⟨h.zero_notMem, _, heq⟩
  have hlen : (linkedArgs words).length = words.length := List.length_mapIdx
  have hnode : s.nodes[s.currList]? = some ⟨none, none⟩ := by
    rw [h.nodes, h.currList, ← hlen, List.getElem?_concat_length]
  have hstore : s.nodes.set s.currList ⟨some (w ++ [0]), none⟩ =
      linkedArgs words ++ [⟨some (w ++ [0]), none⟩] := by
    rw [h.nodes, h.currList, ← hlen, List.set_append_right _ _ le_rfl, Nat.sub_self]
    rfl
  refine ⟨s.currWord.set w.length 0, List.length_set.trans h.length, ?_⟩
  rw [BuildArgs.storeArg, hset]
  show (strcpy (k.chars (s.currLen + 1)) _).bind _ = _
  rw [h.currLen, hstr.strcpy_chars hk]
  show (s.nodes[s.currList]?).bind _ = _
  rw [hnode, ← hstore]
  rfl

/-- A word is ended, and the next one starts empty. -/
theorem Holds.space (h : Holds s words w) (hk : k.Zeroed) (hw : w.length < maxCmdlineCommand) :
    ∃ s₁ s₂, s.storeArg k = some s₁ ∧ s₁.nextNode k = some s₂ ∧ Holds s₂ (words ++ [w]) [] := by
  obtain ⟨currWord, hword, hstore⟩ := h.storeArg hk hw
  have hlen : (linkedArgs words).length = words.length := List.length_mapIdx
  have hlen' : (linkedArgs words ++ [(⟨some (w ++ [0]), none⟩ : Cmdline)]).length =
      words.length + 1 := by
    rw [List.length_append, hlen, List.length_singleton]
  have hnode : (linkedArgs words ++ [(⟨some (w ++ [0]), none⟩ : Cmdline)])[s.currList]? =
      some ⟨some (w ++ [0]), none⟩ := by
    rw [h.currList, ← hlen, List.getElem?_concat_length]
  have hlinked : (linkedArgs words ++ [(⟨some (w ++ [0]), none⟩ : Cmdline)]).set s.currList
      ⟨some (w ++ [0]), some (words.length + 1)⟩ = linkedArgs (words ++ [w]) := by
    have hconcat : linkedArgs (words ++ [w]) =
        linkedArgs words ++ [⟨some (w ++ [0]), some (words.length + 1)⟩] := List.mapIdx_concat
    rw [hconcat, h.currList, ← hlen, List.set_append_right _ _ le_rfl, Nat.sub_self]
    rfl
  refine ⟨_, ⟨linkedArgs (words ++ [w]) ++ [⟨none, none⟩], words.length + 1, currWord, 0⟩, hstore,
    ?_, rfl, ?_, rfl, rfl, hword, List.not_mem_nil, List.not_mem_nil⟩
  · rw [nextNode, hk.cmdline]
    show Option.bind (_[s.currList]?) _ = _
    rw [hnode, ← hlinked, ← hlen']
    rfl
  · rw [List.length_append]
    rfl

/-- A word that fills the buffer cannot be ended. -/
theorem Holds.storeArg_eq_none (h : Holds s words w) (hw : maxCmdlineCommand ≤ w.length) :
    s.storeArg k = none := by
  have hfull : setChar s.currWord s.currLen 0 = none := by
    rw [setChar, h.currLen, h.length, if_neg (Nat.not_lt.mpr hw)]
  rw [BuildArgs.storeArg, hfull]
  rfl

/-- **`build_args`**, from the middle of a word on. It has a result just when every word is shorter
than its buffer. -/
theorem Holds.run (h : Holds s words w) (hk : k.Zeroed) (hzero : (0 : UInt8) ∉ line) :
    BuildArgs.run k (line ++ 0 :: rest) s =
      if WordsFit (w ++ line) then some (argNodes (words ++ (w ++ line).splitOn 0x20))
      else none := by
  induction line generalizing s words w with
  | nil =>
    simp only [List.append_nil, List.splitOn_eq_singleton h.space_notMem, argNodes_concat,
      List.nil_append, BuildArgs.run, if_true, wordsFit_of_notMem h.space_notMem]
    split
    · next hw =>
      obtain ⟨currWord, -, hstore⟩ := h.storeArg hk hw
      rw [hstore]
      rfl
    · next hw =>
      rw [h.storeArg_eq_none (Nat.not_lt.mp hw)]
      rfl
  | cons c line ih =>
    obtain ⟨hc, hline⟩ := not_or.mp (mt List.mem_cons.mpr hzero)
    rw [List.cons_append, BuildArgs.run, if_neg (Ne.symm hc)]
    by_cases hw : w.length < maxCmdlineCommand
    · by_cases hspace : c = 0x20
      · subst hspace
        obtain ⟨s₁, s₂, hstore, hnext, hholds⟩ := h.space hk hw
        rw [if_pos rfl, hstore]
        show (s₁.nextNode k).bind _ = _
        rw [hnext]
        show BuildArgs.run k (line ++ 0 :: rest) s₂ = _
        simp only [ih hholds hline, List.nil_append, wordsFit_append_cons h.space_notMem, hw,
          true_and, List.splitOn_append_cons_self_of_not_mem h.space_notMem, List.append_assoc,
          List.singleton_append]
      · obtain ⟨currWord, hset, hholds⟩ := h.push hw (Ne.symm hc) hspace
        rw [if_neg hspace, hset]
        show BuildArgs.run k (line ++ 0 :: rest) _ = _
        rw [ih hholds hline, List.append_assoc, List.singleton_append]
    · -- neither another character nor the NUL has room
      have hfull : setChar s.currWord s.currLen c = none := by
        rw [setChar, h.currLen, h.length, if_neg hw]
      rw [h.storeArg_eq_none (Nat.not_lt.mp hw), hfull,
        if_neg (not_wordsFit_append h.space_notMem (Nat.not_lt.mp hw))]
      split <;> rfl

end BuildArgs

/-- **`build_args`** makes one node for each word, if every word is shorter than its buffer. -/
theorem buildArgs_eq {k : CmdlineAlloc} {line currWord : List UInt8} (rest : List UInt8)
    (hk : k.Zeroed) (hzero : (0 : UInt8) ∉ line) (hword : currWord.length = maxCmdlineCommand) :
    buildArgs k (line ++ 0 :: rest) currWord =
      if WordsFit line then some (argNodes (line.splitOn 0x20)) else none := by
  have hstart : BuildArgs.Holds ⟨[⟨none, none⟩], 0, currWord, 0⟩ [] [] :=
    ⟨rfl, rfl, rfl, rfl, hword, List.not_mem_nil, List.not_mem_nil⟩
  rw [buildArgs, hstart.run hk hzero, List.nil_append, List.nil_append]

/-! ### The lookup -/

section Find

variable {k : CmdlineAlloc} {words : List (List UInt8)} {key queryBuf query w : List UInt8}

/-- The body of the loop. -/
theorem findStep_eq (next : Option ℕ) (hk : k.Zeroed) (hw : (0 : UInt8) ∉ w)
    (hlen : w.length < maxCmdlineCommand) (hkey : key.length = maxCmdlineCommand)
    (hquery : CStr queryBuf query) :
    ∃ key', key'.length = maxCmdlineCommand ∧ findStep k queryBuf key ⟨some (w ++ [0]), next⟩ =
      some (key', if wordKey w = query then some (wordVal w ++ [0]) else none) := by
  have harg : CStr (w ++ [0]) w := .of_append hw
  obtain ⟨key₁, hcopy, hstr₁, hlen₁⟩ := harg.strcpy (hkey.symm ▸ hlen)
  obtain ⟨key₂, hmake, hstr₂, hlen₂⟩ := hstr₁.makeKey
  obtain ⟨diff, hdiff, hiff⟩ := hstr₂.strncmp_eq hquery
    (Nat.lt_of_le_of_lt (length_wordKey_le w) hlen)
  have hval : CStr ((w ++ [0]).drop (wordKey w).length) (w.drop (wordKey w).length) :=
    harg.drop (length_wordKey_le w)
  have hwordVal : wordVal (w.drop (wordKey w).length) = wordVal w := by
    rw [drop_length_wordKey, wordVal, List.dropWhile_idempotent, wordVal]
  refine ⟨key₂, hlen₂.trans (hlen₁.trans hkey), ?_⟩
  rw [findStep]
  show (strcpy key (w ++ [0])).bind _ = _
  rw [hcopy]
  show (makeKey key₁).bind _ = _
  rw [hmake]
  show (strncmp key₂ queryBuf maxCmdlineCommand).bind _ = _
  rw [hdiff]
  show (if diff = 0 then _ else _) = _
  by_cases heq : wordKey w = query
  · rw [if_pos (hiff.mpr heq), if_pos heq, hstr₂.strlen_eq]
    show (makeVal k ((w ++ [0]).drop (wordKey w).length)).bind _ = _
    rw [hval.makeVal_eq hk, hwordVal]
    rfl
  · rw [if_neg (mt hiff.mp heq), if_neg heq]

theorem getElem?_argNodes {i : ℕ} (hi : i < words.length) :
    (argNodes words)[i]? =
      some ⟨some (words[i] ++ [0]), if i + 1 < words.length then some (i + 1) else none⟩ := by
  rw [argNodes, List.getElem?_mapIdx, List.getElem?_eq_getElem hi]
  rfl

/-- **`find_cmdline`**, from a node on, or at the end of the list. -/
theorem findCmdline_from (hk : k.Zeroed)
    (hws : ∀ w ∈ words, (0 : UInt8) ∉ w ∧ w.length < maxCmdlineCommand)
    (hkey : key.length = maxCmdlineCommand) (hquery : CStr queryBuf query) {i fuel : ℕ}
    (hfuel : words.length ≤ i + fuel) :
    findCmdline k (argNodes words) queryBuf fuel key (if i < words.length then some i else none) =
      some (((words.drop i).find? (wordKey · = query)).map (wordVal · ++ [0])) := by
  induction fuel generalizing i key with
  | zero =>
    have hle : words.length ≤ i := hfuel
    rw [if_neg (Nat.not_lt.mpr hle), List.drop_eq_nil_of_le hle, findCmdline]
    rfl
  | succ fuel ih =>
    by_cases hi : i < words.length
    · obtain ⟨hzero, hlen⟩ := hws _ (List.getElem_mem hi)
      obtain ⟨key', hkey', hstep⟩ := findStep_eq
        (if i + 1 < words.length then some (i + 1) else none) hk hzero hlen hkey hquery
      rw [if_pos hi, List.drop_eq_getElem_cons hi, findCmdline, getElem?_argNodes hi]
      show (findStep k queryBuf key _).bind _ = _
      rw [hstep]
      by_cases heq : wordKey words[i] = query
      · rw [if_pos heq, List.find?_cons_of_pos (by simpa using heq)]
        rfl
      · rw [if_neg heq, List.find?_cons_of_neg (by simpa using heq)]
        exact ih hkey' (by omega)
    · rw [if_neg hi, List.drop_eq_nil_of_le (Nat.le_of_not_lt hi), findCmdline]
      rfl

end Find

/-- A word is part of the line. -/
theorem sublist_of_mem_splitOn {line w : List UInt8} (hw : w ∈ line.splitOn 0x20) :
    w.Sublist line := by
  induction line generalizing w with
  | nil =>
    rw [List.splitOn_nil, List.mem_singleton] at hw
    rw [hw]
  | cons c line ih =>
    rw [List.splitOn_cons_eq_if_modifyHead] at hw
    split at hw
    · rcases List.mem_cons.mp hw with rfl | hw
      · exact List.nil_sublist _
      · exact (ih hw).cons c
    · cases hsplit : line.splitOn 0x20 with
      | nil => exact absurd hsplit (List.splitOn_ne_nil _ _)
      | cons w' ws =>
        rw [hsplit, List.modifyHead_cons] at hw
        rcases List.mem_cons.mp hw with rfl | hw
        · exact (ih (hsplit ▸ List.mem_cons_self)).cons_cons c
        · exact (ih (hsplit ▸ List.mem_cons_of_mem _ hw)).cons c

/-- **The kernel command line** is looked up word by word: the first word with the key gives its
value, and there is no result exactly when no word has the key. -/
theorem cmdline_lookup {k : CmdlineAlloc} (line query rest rest' : List UInt8)
    {currWord key : List UInt8} (hk : k.Zeroed)
    (hline : (0 : UInt8) ∉ line) (hlen : line.length ≤ 511) (hquery : (0 : UInt8) ∉ query)
    (hword : currWord.length = maxCmdlineCommand) (hkey : key.length = maxCmdlineCommand) :
    ∃ nodes, buildArgs k (line ++ 0 :: rest) currWord = some nodes ∧ ∀ fuel ≥ nodes.length,
      findCmdline k nodes (query ++ 0 :: rest') fuel key (some 0) =
          some (((line.splitOn 0x20).find? (wordKey · = query)).map (wordVal · ++ [0])) ∧
        (findCmdline k nodes (query ++ 0 :: rest') fuel key (some 0) = some none ↔
          ∀ w ∈ line.splitOn 0x20, wordKey w ≠ query) := by
  have hlt : line.length < maxCmdlineCommand := Nat.lt_succ_of_le hlen
  have hws : ∀ w ∈ line.splitOn 0x20, (0 : UInt8) ∉ w ∧ w.length < maxCmdlineCommand := by
    intro w hw
    have hsub := sublist_of_mem_splitOn hw
    exact ⟨fun hmem => hline (hsub.subset hmem), Nat.lt_of_le_of_lt hsub.length_le hlt⟩
  have hbuild := buildArgs_eq rest hk hline hword
  rw [if_pos (show WordsFit line from fun w hw => (hws w hw).2)] at hbuild
  refine ⟨_, hbuild, fun fuel hfuel => ?_⟩
  have hpos : 0 < (line.splitOn 0x20).length :=
    List.length_pos_iff.mpr (List.splitOn_ne_nil _ _)
  have hfuel' : (line.splitOn 0x20).length ≤ 0 + fuel := by
    rw [argNodes, List.length_mapIdx] at hfuel
    omega
  have hfind := findCmdline_from hk hws hkey ⟨hquery, rest', rfl⟩ hfuel'
  rw [if_pos hpos, List.drop_zero] at hfind
  refine ⟨hfind, ?_⟩
  rw [hfind]
  simp

/-- A `kzalloc` that has memory. -/
def zeroAlloc : CmdlineAlloc := ⟨fun size => List.replicate size 0, ⟨none, none⟩⟩

theorem zeroed_zeroAlloc : zeroAlloc.Zeroed := ⟨fun _ => rfl, rfl⟩

/-- The line `a=1  a` has three words, and the first one with the key `a` has the value `1`. -/
theorem cmdline_lookup_first :
    ∃ nodes,
      buildArgs zeroAlloc ([0x61, 0x3d, 0x31, 0x20, 0x20, 0x61] ++ 0 :: [])
          (List.replicate 512 0) = some nodes ∧
        ∀ fuel ≥ nodes.length,
          findCmdline zeroAlloc nodes ([0x61] ++ 0 :: []) fuel (List.replicate 512 0) (some 0) =
            some (some [0x31, 0]) := by
  obtain ⟨nodes, hbuild, hfind⟩ := cmdline_lookup [0x61, 0x3d, 0x31, 0x20, 0x20, 0x61] [0x61] [] []
    zeroed_zeroAlloc (by decide) (by decide) (by decide) List.length_replicate
    List.length_replicate
  exact ⟨nodes, hbuild, fun fuel hfuel => (hfind fuel hfuel).1⟩

end GoofyOs
