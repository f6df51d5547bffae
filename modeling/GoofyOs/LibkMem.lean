import GoofyOs.PageUnion

/-!
# The functions of `libk/string.c` on memory

`memset` fills eight bytes at a time as long as there are eight, and the rest one by one. It keeps
two cursors, and the one for the single bytes is not moved by the first loop: the rest of the range
is left as it was, and the start is filled again.

`strdup` asks `kmalloc` for as many bytes as the string has characters, and then writes the NUL
too. There is room for it just when the size is rounded up.

Memory is a map of bytes, together with the addresses that were stored to, in order.

## Main definitions

* `ByteMem` — memory, with a single byte and eight bytes stored to it
* `ByteMem.memset`, `ByteMem.memcpy`, `ByteMem.strlen`, `ByteMem.strcpy`, `strdup` — the code
* `ByteMem.HasString` — a string in memory

## Main results

* `ByteMem.memset_byte` — what `memset` leaves in memory
* `memset_fills_iff` — when it fills the range
* `strdup_run` — the addresses that `strdup` stores to
* `strdup_inside_iff` — when they are in the chunk
-/

namespace GoofyOs

/-- Memory, and the addresses that were stored to. -/
structure ByteMem where
  byte : ℕ → UInt8
  stores : List ℕ

/-- `kmalloc_size`. -/
def kmallocSize (size : ℕ) : ℕ := (kmallocCaches.getD (kmallocIdx size) (0, 0)).1

namespace ByteMem

variable (m : ByteMem)

/-- Storing a byte. -/
def store (a : ℕ) (c : UInt8) : ByteMem := ⟨Function.update m.byte a c, m.stores ++ [a]⟩

/-- Storing a `uint64_t`. -/
def store64 (a : ℕ) (v : BitVec 64) : ByteMem :=
  (List.range 8).foldl (fun m j => m.store (a + j) ⟨v.extractLsb' (8 * j) 8⟩) m

/-- The pattern of `memset`. -/
def memsetPattern (c : UInt8) : BitVec 64 :=
  let pattern := c.toBitVec.setWidth 64
  let pattern := pattern ||| pattern <<< 8
  let pattern := pattern ||| pattern <<< 16
  pattern ||| pattern <<< 32

/-- The first loop of `memset`: the count that is left, and the memory. -/
def memsetQuads (pattern : BitVec 64) : ℕ → ℕ → ByteMem → ℕ × ByteMem
  | count + 8, qPtr, m => memsetQuads pattern count (qPtr + 8) (m.store64 qPtr pattern)
  | count, _, m => (count, m)

/-- The second loop of `memset`. -/
def memsetBytes (c : UInt8) : ℕ → ℕ → ByteMem → ByteMem
  | 0, _, m => m
  | count + 1, bPtr, m => memsetBytes c count (bPtr + 1) (m.store bPtr c)

/-- `memset`. -/
def memset (dest : ℕ) (c : ℤ) (count : ℕ) : ByteMem :=
  let r := memsetQuads (memsetPattern (UInt8.ofInt c)) count dest m
  memsetBytes (UInt8.ofInt c) r.1 dest r.2

/-- `memcpy`. -/
def memcpy : ℕ → ℕ → ℕ → ByteMem → ByteMem
  | _, _, 0, m => m
  | dest, src, count + 1, m => memcpy (dest + 1) (src + 1) count (m.store dest (m.byte src))

/-- The loop of `strlen`, from character `i` on. -/
def strlenLoop (str : ℕ) : ℕ → ℕ → Option ℕ
  | 0, _ => none
  | fuel + 1, i => if m.byte (str + i) = 0 then some i else strlenLoop str fuel (i + 1)

/-- `strlen`. -/
def strlen (fuel str : ℕ) : Option ℕ := m.strlenLoop str fuel 0

/-- `strcpy`, without its result. -/
def strcpy (fuel str1 str2 : ℕ) : Option ByteMem := do
  let len ← m.strlen fuel str2
  some ((memcpy str1 str2 len m).store (str1 + len) 0)

/-- There is a string at an address. -/
structure HasString (str : ℕ) (s : List UInt8) : Prop where
  char : ∀ (i : ℕ) (h : i < s.length), m.byte (str + i) = s[i] ∧ s[i] ≠ 0
  nul : m.byte (str + s.length) = 0

end ByteMem

/-- `strdup`. A null pointer cannot be copied to. -/
def strdup (mm : Mm) (m : ByteMem) (fuel str : ℕ) : Option (ℕ × Mm × ByteMem) := do
  let len ← m.strlen fuel str
  let (new, mm) ← mm.kmalloc len
  let new ← new
  let m ← m.strcpy fuel new str
  some (new, mm, m)

namespace ByteMem

variable {m m' : ByteMem} {dest src str a n count fuel i : ℕ} {c : UInt8} {s : List UInt8}

@[simp] theorem store_byte : (m.store a c).byte = Function.update m.byte a c := rfl

@[simp] theorem store_stores : (m.store a c).stores = m.stores ++ [a] := rfl

/-! ### `memset` -/

/-- The memory with `n` bytes from `dest` on filled. -/
def filled (f : ℕ → UInt8) (dest n : ℕ) (c : UInt8) (a : ℕ) : UInt8 :=
  if dest ≤ a ∧ a < dest + n then c else f a

theorem filled_zero (f : ℕ → UInt8) : filled f dest 0 c = f := by
  funext a
  rw [filled, if_neg (by omega)]

theorem update_filled (f : ℕ → UInt8) (dest n : ℕ) (c : UInt8) :
    Function.update (filled f dest n c) (dest + n) c = filled f dest (n + 1) c := by
  funext a
  by_cases ha : a = dest + n
  · rw [ha, Function.update_self, filled, if_pos (by omega)]
  · rw [Function.update_of_ne ha, filled, filled]
    simp only [show (dest ≤ a ∧ a < dest + (n + 1)) ↔ (dest ≤ a ∧ a < dest + n) by omega]

/-- What is filled next to what was filled. -/
theorem filled_filled (f : ℕ → UInt8) (k : ℕ) :
    filled (filled f dest n c) (dest + n) k c = filled f dest (n + k) c := by
  funext a
  simp only [filled]
  split_ifs <;> first | rfl | omega

/-- Filling a part of what was filled. -/
theorem filled_filled_of_le (f : ℕ → UInt8) {k : ℕ} (h : k ≤ n) :
    filled (filled f dest n c) dest k c = filled f dest n c := by
  funext a
  simp only [filled]
  split_ifs <;> first | rfl | omega

/-- The low `n` bytes are all the same, and the others are zero. -/
def Repeats (v : BitVec 64) (c : UInt8) (n : ℕ) : Prop :=
  ∀ k < 64, v.getLsbD k = (decide (k < 8 * n) && c.toBitVec.getLsbD (k % 8))

/-- A shift and an `or` double the number of bytes. -/
theorem Repeats.double {v : BitVec 64} (h : Repeats v c n) :
    Repeats (v ||| v <<< (8 * n)) c (2 * n) := by
  intro k hk
  rw [BitVec.getLsbD_or, BitVec.getLsbD_shiftLeft, h k hk]
  by_cases hlow : k < 8 * n
  · simp [hlow, show k < 8 * (2 * n) by omega]
  · have hmod : (k - 8 * n) % 8 = k % 8 := by omega
    have hiff : k - 8 * n < 8 * n ↔ k < 8 * (2 * n) := by omega
    rw [h (k - 8 * n) (by omega), hmod]
    simp [hlow, hiff, hk]

theorem repeats_memsetPattern (c : UInt8) : Repeats (memsetPattern c) c 8 := by
  have hone : Repeats (c.toBitVec.setWidth 64) c 1 := by
    intro k hk
    rw [BitVec.getLsbD_setWidth]
    by_cases hlow : k < 8
    · simp [hk, hlow, Nat.mod_eq_of_lt hlow]
    · simp [hlow, BitVec.getLsbD_of_ge c.toBitVec k (Nat.not_lt.mp hlow)]
  exact hone.double.double.double

/-- Every byte of the pattern is the byte. -/
theorem extract_memsetPattern (c : UInt8) (hi : i < 8) :
    (⟨(memsetPattern c).extractLsb' (8 * i) 8⟩ : UInt8) = c := by
  rw [← UInt8.toBitVec_inj]
  apply BitVec.eq_of_getLsbD_eq
  intro j hj
  show ((memsetPattern c).extractLsb' (8 * i) 8).getLsbD j = _
  rw [BitVec.getLsbD_extractLsb', repeats_memsetPattern c _ (by omega),
    show (8 * i + j) % 8 = j by omega]
  simp [hj, show 8 * i + j < 8 * 8 by omega]

/-- The stores of a word, one byte after another. -/
theorem foldl_store (hk : n ≤ 8) : ((List.range n).foldl
    (fun m j => m.store (a + j) ⟨(memsetPattern c).extractLsb' (8 * j) 8⟩) m).byte =
      filled m.byte a n c := by
  induction n with
  | zero => exact (filled_zero m.byte).symm
  | succ n ih =>
    rw [List.range_succ, List.foldl_concat, store_byte, ih (by omega),
      extract_memsetPattern c (by omega), update_filled]

theorem store64_byte : (m.store64 a (memsetPattern c)).byte = filled m.byte a 8 c :=
  foldl_store le_rfl

/-- **The first loop of `memset`** fills what it can in steps of eight bytes. -/
theorem memsetQuads_eq (count dest : ℕ) (m : ByteMem) :
    (memsetQuads (memsetPattern c) count dest m).1 = count % 8 ∧
      (memsetQuads (memsetPattern c) count dest m).2.byte =
        filled m.byte dest (count / 8 * 8) c := by
  fun_induction memsetQuads (memsetPattern c) count dest m with
  | case1 dest m count ih =>
    refine ⟨by omega, ?_⟩
    rw [ih.2, store64_byte, filled_filled]
    congr 1
    omega
  | case2 count dest m hlt =>
    have hcount : count < 8 := by
      by_contra hge
      exact hlt (count - 8) (by omega)
    rw [Nat.div_eq_of_lt hcount, Nat.mod_eq_of_lt hcount, Nat.zero_mul, filled_zero]
    exact ⟨rfl, rfl⟩

/-- **The second loop of `memset`.** -/
theorem memsetBytes_byte : (memsetBytes c n dest m).byte = filled m.byte dest n c := by
  induction n generalizing dest m with
  | zero => exact (filled_zero m.byte).symm
  | succ n ih =>
    have hone : (m.store dest c).byte = filled m.byte dest 1 c := by
      have hupdate := update_filled m.byte dest 0 c
      rwa [filled_zero] at hupdate
    rw [memsetBytes, ih, hone, filled_filled, Nat.add_comm 1 n]

/-- **`memset`** fills the range up to the last multiple of eight bytes, or all of it if it is
shorter than that. -/
theorem memset_byte (m : ByteMem) (dest : ℕ) (c : ℤ) (count : ℕ) :
    (m.memset dest c count).byte = filled m.byte dest
      (if count < 8 then count else count / 8 * 8) (UInt8.ofInt c) := by
  obtain ⟨hleft, hquads⟩ := memsetQuads_eq (c := UInt8.ofInt c) count dest m
  rw [memset, memsetBytes_byte, hleft, hquads]
  split
  · next hlt =>
    rw [Nat.div_eq_of_lt hlt, Nat.mod_eq_of_lt hlt, Nat.zero_mul, filled_zero]
  · next hge => exact filled_filled_of_le m.byte (by omega)

/-! ### `strdup` -/

theorem memcpy_stores : (memcpy dest src n m).stores = m.stores ++ List.range' dest n := by
  induction n generalizing dest src m with
  | zero => exact (List.append_nil _).symm
  | succ n ih => rw [memcpy, ih, store_stores, List.append_assoc, List.range'_succ]; rfl

theorem memcpy_byte_of_notMem (h : a ∉ List.range' dest n) :
    (memcpy dest src n m).byte a = m.byte a := by
  induction n generalizing dest src m with
  | zero => rfl
  | succ n ih =>
    rw [List.range'_succ, List.mem_cons, not_or] at h
    rw [memcpy, ih h.2, store_byte, Function.update_of_ne h.1]

/-- The loop of `strlen` goes on to the NUL. -/
theorem HasString.strlenLoop (h : m.HasString str s) (hi : i ≤ s.length)
    (hfuel : s.length < i + fuel) : m.strlenLoop str fuel i = some s.length := by
  induction fuel generalizing i with
  | zero => exact absurd hfuel (Nat.not_lt.mpr hi)
  | succ fuel ih =>
    rw [ByteMem.strlenLoop]
    rcases Nat.lt_or_eq_of_le hi with hlt | rfl
    · obtain ⟨hchar, hne⟩ := h.char i hlt
      rw [if_neg (hchar ▸ hne), ih hlt (by omega)]
    · rw [if_pos h.nul]

/-- Without enough fuel there is no result. -/
theorem HasString.of_strlen (h : m.HasString str s) {len : ℕ}
    (hlen : m.strlen fuel str = some len) : len = s.length ∧ s.length < fuel := by
  by_cases hfuel : s.length < fuel
  · rw [strlen, h.strlenLoop (Nat.zero_le _) (by omega)] at hlen
    exact ⟨(Option.some.inj hlen).symm, hfuel⟩
  · have hnone : ∀ k ≤ fuel, m.strlenLoop str k (fuel - k) = none := by
      intro k hk
      induction k with
      | zero => rfl
      | succ k ih =>
        obtain ⟨hchar, hne⟩ := h.char (fuel - (k + 1)) (by omega)
        rw [ByteMem.strlenLoop, if_neg (hchar ▸ hne),
          show fuel - (k + 1) + 1 = fuel - k by omega, ih (by omega)]
    have hzero := hnone fuel le_rfl
    rw [Nat.sub_self] at hzero
    rw [strlen, hzero] at hlen
    cases hlen

end ByteMem

section Strdup

open ByteMem

variable {mm mm' : Mm} {m m' : ByteMem} {fuel str new a size : ℕ} {s : List UInt8}

/-- **`strdup`** stores to as many bytes as the string has characters, and one more. -/
theorem strdup_run (h : m.HasString str s) (hrun : strdup mm m fuel str = some (new, mm', m')) :
    mm.kmalloc s.length = some (some new, mm') ∧
      m'.stores = m.stores ++ List.range' new (s.length + 1) ∧
      ∀ a ∉ List.range' new (s.length + 1), m'.byte a = m.byte a := by
  obtain ⟨len, hlen, hrun⟩ := Option.bind_eq_some_iff.mp hrun
  obtain ⟨rfl, -⟩ := h.of_strlen hlen
  obtain ⟨⟨chunk, mm₁⟩, halloc, hchunk⟩ := Option.bind_eq_some_iff.mp hrun
  obtain ⟨new₁, rfl, hrest⟩ := Option.bind_eq_some_iff.mp hchunk
  obtain ⟨m₁, hcopy, hret⟩ := Option.bind_eq_some_iff.mp hrest
  obtain ⟨rfl, rfl, rfl⟩ : new₁ = new ∧ mm₁ = mm' ∧ m₁ = m' := by
    simpa only [Option.some.injEq, Prod.mk.injEq] using hret
  rw [ByteMem.strcpy, hlen] at hcopy
  obtain rfl := Option.some.inj hcopy
  have hrange : List.range' new₁ (s.length + 1) =
      List.range' new₁ s.length ++ [new₁ + s.length] := List.range'_1_concat
  refine ⟨halloc, ?_, fun a ha => ?_⟩
  · rw [store_stores, memcpy_stores, List.append_assoc, hrange]
  · rw [hrange, List.mem_append, not_or, List.mem_singleton] at ha
    rw [store_byte, Function.update_of_ne ha.2, memcpy_byte_of_notMem ha.1]

/-- There is room for a NUL just when the size is rounded up. -/
theorem lt_kmallocSize_iff (h : size < 8192) :
    size < kmallocSize size ↔ size ∉ kmallocCaches.map Prod.fst := by
  have hmem : size ∉ kmallocCaches.map Prod.fst ↔ size ≠ 8 ∧ size ≠ 16 ∧ size ≠ 32 ∧ size ≠ 64 ∧
      size ≠ 128 ∧ size ≠ 192 ∧ size ≠ 256 ∧ size ≠ 512 ∧ size ≠ 1024 ∧ size ≠ 2048 ∧
      size ≠ 4096 ∧ size ≠ 8192 := by
    simp [kmallocCaches]
  -- the classes one after another
  have step : ∀ {p : Prop} [Decidable p] {a b : ℕ},
      (p → (size < (kmallocCaches.getD a (0, 0)).1 ↔ size ∉ kmallocCaches.map Prod.fst)) →
      (¬ p → (size < (kmallocCaches.getD b (0, 0)).1 ↔ size ∉ kmallocCaches.map Prod.fst)) →
      (size < (kmallocCaches.getD (if p then a else b) (0, 0)).1 ↔
        size ∉ kmallocCaches.map Prod.fst) := by
    intro p _ a b ha hb
    split
    · next hp => exact ha hp
    · next hp => exact hb hp
  unfold kmallocSize kmallocIdx
  iterate 12
    refine step (fun _ => ?_) fun _ => ?_
    · rw [hmem]
      simp only [kmallocCaches, List.getD_cons_succ, List.getD_cons_zero]
      omega
  omega

/-- The caches that `slab_init` sets up have chunks of this size. -/
theorem kmallocSize_eq {L : ℕ → List ℕ} (hm : mm.Booted L) (h : size ≤ 8192) :
    kmallocSize size = (mm.slabs.caches (kmallocIdx size)).size := by
  rw [kmallocSize, List.getD_eq_getElem?_getD, hm.caches _ (Mm.kmallocIdx_lt h)]
  rfl

/-- The bytes of the chunk that `kmalloc` returned. -/
def chunkBytes (new size : ℕ) : Set ℕ := Set.Ico new (new + kmallocSize size)

theorem mem_chunkBytes : a ∈ chunkBytes new size ↔ new ≤ a ∧ a < new + kmallocSize size := Iff.rfl

/-- **`strdup`** stores only to the chunk that it got, and leaves all other bytes as they were, just
when the length of the string is not the size of a class of `kmalloc`. -/
theorem strdup_inside_iff {mm mm' : Mm} {byte : ℕ → UInt8} {m' : ByteMem} {fuel str new : ℕ}
    {s : List UInt8} (h : (ByteMem.mk byte []).HasString str s) (hlen : s.length < 8192)
    (hrun : strdup mm ⟨byte, []⟩ fuel str = some (new, mm', m')) :
    ((∀ a ∈ m'.stores, a ∈ chunkBytes new s.length) ∧
      ∀ a ∉ chunkBytes new s.length, m'.byte a = byte a) ↔
    s.length ∉ kmallocCaches.map Prod.fst := by
  obtain ⟨-, hstores, hframe⟩ := strdup_run h hrun
  rw [List.nil_append] at hstores
  rw [← lt_kmallocSize_iff hlen, hstores]
  constructor
  · rintro ⟨hin, -⟩
    have hlast := hin (new + s.length) (List.mem_range'_1.mpr ⟨by omega, by omega⟩)
    rw [mem_chunkBytes] at hlast
    omega
  · intro hroom
    have hin : ∀ a ∈ List.range' new (s.length + 1), a ∈ chunkBytes new s.length := by
      intro a ha
      have hbounds := List.mem_range'_1.mp ha
      rw [mem_chunkBytes]
      omega
    exact ⟨hin, fun a ha => hframe a fun hmem => ha (hin a hmem)⟩

/-- A string of `n` characters at address zero. -/
def charsMem (n a : ℕ) : UInt8 := if a < n then 0x61 else 0

theorem hasString_charsMem (n : ℕ) :
    (ByteMem.mk (charsMem n) []).HasString 0 (List.replicate n 0x61) where
  char i hi := by
    rw [List.length_replicate] at hi
    simp [charsMem, hi]
  nul := by simp [charsMem]

/-- `kmalloc` has a chunk of 4096 bytes. -/
theorem kmalloc_mmStart (hsize : 2048 < size) (hsize' : size ≤ 4096) :
    ∃ new mm', mmStart.kmalloc size = some (some new, mm') := by
  have halloc : (mmStart.kmemCacheAlloc 10).map (fun r => r.1.isSome) = some true := by
    decide +kernel
  have hidx : kmallocIdx size = 10 := by
    rw [kmallocIdx]
    iterate 10 rw [if_neg (by omega)]
    exact if_pos hsize'
  rw [Mm.kmalloc, if_neg (by omega), hidx]
  obtain ⟨⟨new, mm'⟩, hr, hsome⟩ := Option.map_eq_some_iff.mp halloc
  obtain ⟨new, rfl⟩ := Option.isSome_iff_exists.mp hsome
  exact ⟨new, mm', hr⟩

/-- A run of `strdup`. -/
theorem exists_strdup (size : ℕ) (hsize : 2048 < size) (hsize' : size ≤ 4096) :
    ∃ new mm' m', strdup mmStart ⟨charsMem size, []⟩ 4097 0 = some (new, mm', m') := by
  have hlen : (ByteMem.mk (charsMem size) []).strlen 4097 0 = some size := by
    have hstr := hasString_charsMem size
    rw [ByteMem.strlen, hstr.strlenLoop (Nat.zero_le _) (by rw [List.length_replicate]; omega),
      List.length_replicate]
  obtain ⟨new, mm', halloc⟩ := kmalloc_mmStart hsize hsize'
  refine ⟨new, mm', (ByteMem.memcpy new 0 size ⟨charsMem size, []⟩).store (new + size) 0, ?_⟩
  rw [strdup, hlen]
  show (mmStart.kmalloc size).bind _ = _
  rw [halloc]
  show (ByteMem.strcpy _ 4097 new 0).bind _ = _
  rw [ByteMem.strcpy, hlen]
  rfl

/-- A string of 4095 characters. -/
theorem strdup_inside_iff_4095 : ∃ new mm' m',
    strdup mmStart ⟨charsMem 4095, []⟩ 4097 0 = some (new, mm', m') ∧
      ∀ a ∈ m'.stores, a ∈ chunkBytes new 4095 := by
  obtain ⟨new, mm', m', hrun⟩ := exists_strdup 4095 (by decide) (by decide)
  have hinside := strdup_inside_iff (hasString_charsMem 4095)
    (by rw [List.length_replicate]; decide) hrun
  rw [List.length_replicate] at hinside
  exact ⟨new, mm', m', hrun, (hinside.mpr (by decide)).1⟩

/-- A string of 4096 characters: the NUL is stored behind the chunk. -/
theorem not_strdup_inside : ¬ ∀ (mm mm' : Mm) (byte : ℕ → UInt8) (m' : ByteMem) (fuel str new : ℕ)
    (s : List UInt8), (ByteMem.mk byte []).HasString str s → s.length < 8192 →
      strdup mm ⟨byte, []⟩ fuel str = some (new, mm', m') →
        ∀ a ∈ m'.stores, a ∈ chunkBytes new s.length := by
  intro h
  obtain ⟨new, mm', m', hrun⟩ := exists_strdup 4096 (by decide) (by decide)
  have hstr := hasString_charsMem 4096
  obtain ⟨-, hstores, -⟩ := strdup_run hstr hrun
  rw [List.length_replicate] at hstores
  have hlast := h _ _ _ _ _ _ _ _ hstr (by rw [List.length_replicate]; decide) hrun (new + 4096)
    (by rw [hstores]; exact List.mem_range'_1.mpr ⟨by omega, by omega⟩)
  rw [List.length_replicate, mem_chunkBytes, show kmallocSize 4096 = 4096 by decide] at hlast
  omega

end Strdup

/-- **`memset`** fills the range, and nothing else, just when there are fewer than eight bytes, or
a multiple of eight, or those after the last multiple of eight hold the value already. -/
theorem memset_fills_iff (m : ByteMem) (dest : ℕ) (c : ℤ) (count : ℕ) :
    ((∀ i < count, (m.memset dest c count).byte (dest + i) = UInt8.ofInt c) ∧
      ∀ a, (∀ i < count, a ≠ dest + i) → (m.memset dest c count).byte a = m.byte a) ↔
    count < 8 ∨ 8 ∣ count ∨
      ∀ i, count / 8 * 8 ≤ i → i < count → m.byte (dest + i) = UInt8.ofInt c := by
  rw [ByteMem.memset_byte]
  generalize hn : (if count < 8 then count else count / 8 * 8) = n
  have hle : n ≤ count ∧ count / 8 * 8 ≤ n ∧ (n = count ↔ count < 8 ∨ 8 ∣ count) := by
    split at hn <;> omega
  constructor
  · rintro ⟨hfill, -⟩
    by_contra hnot
    simp only [not_or, not_forall] at hnot
    obtain ⟨hge, hdvd, i, hi, hlt, hne⟩ := hnot
    rw [if_neg hge] at hn
    have hlast := hfill i hlt
    rw [ByteMem.filled, if_neg (by omega)] at hlast
    exact hne hlast
  · intro h
    refine ⟨fun i hi => ?_, fun a ha => ?_⟩
    · rw [ByteMem.filled]
      split
      · rfl
      · next hout =>
        rcases h with h | h | h
        · omega
        · omega
        · exact h i (by omega) hi
    · exact if_neg fun hin => ha (a - dest) (by omega) (by omega)

/-- Nine bytes of zeroed memory: the last of them is not filled. -/
theorem not_memset_fills : ¬ ∀ (m : ByteMem) (dest : ℕ) (c : ℤ) (count : ℕ),
    (∀ i < count, (m.memset dest c count).byte (dest + i) = UInt8.ofInt c) ∧
      ∀ a, (∀ i < count, a ≠ dest + i) → (m.memset dest c count).byte a = m.byte a := by
  intro h
  have hlast := (h ⟨fun _ => 0, []⟩ 0 1 9).1 8 (by decide)
  rw [ByteMem.memset_byte] at hlast
  exact absurd hlast (by decide)

end GoofyOs
