import GoofyOs.ForMathlib.Slots
import GoofyOs.LibkMem
import GoofyOs.Madt
import GoofyOs.SlabRun

/-!
# The chunks of a slab, byte by byte

The free chunks of a slab are a list that goes through the chunks themselves: the first eight bytes
of a free chunk are a pointer to the next one. Here memory is bytes, the chunks have any size from
eight on, and what is in use is written in any way. The bytes that the list is made of are those of
free chunks, so nobody writes them but the allocator.

## Main definitions

* `ByteMem.loadPtr`, `ByteMem.storePtr` — a pointer in memory
* `SlabBytes` — the slab allocator, with its memory in bytes
* `SlabBytes.kmemCacheNewEmpty`, `SlabBytes.kmemGetChunkFromSlab`, `SlabBytes.kmemCacheFreeNolock` —
  the code
* `SlabUse` — the chunks that are in use
* `SlabBytes.Carved`, `SlabUse.Accounted` — what a new slab is, and what holds of it ever after

## Main results

* `SlabBytes.carve_spec` — the list of a new slab
* `SlabUse.exec_inv` — what one step preserves
* `slab_chunks` — every run from a new slab
-/

namespace GoofyOs

open LinkedList

/-- A little-endian `uint64_t`. -/
def readU64 (mem : ℕ → UInt8) (o : ℕ) : ℕ := readU32 mem o + 2 ^ 32 * readU32 mem (o + 4)

namespace ByteMem

/-- A pointer in memory. -/
def loadPtr (m : ByteMem) (a : ℕ) : Option ℕ :=
  if readU64 m.byte a = 0 then none else some (readU64 m.byte a)

/-- Storing a pointer. -/
def storePtr (m : ByteMem) (a : ℕ) (p : Option ℕ) : ByteMem := m.store64 a (.ofNat 64 (p.getD 0))

/-- `slist_pop_front`. -/
def slistPopFront (m : ByteMem) (head : Option ℕ) : Option (ℕ × Option ℕ) :=
  head.map fun ret => (ret, m.loadPtr ret)

/-- `slist_push_front`: the memory and the new head. -/
def slistPushFront (m : ByteMem) (head : Option ℕ) (needle : ℕ) : ByteMem × Option ℕ :=
  (m.storePtr needle head, some needle)

variable {m m' : ByteMem} {a b n x y : ℕ} {p : Option ℕ}

/-! ### Pointers in memory -/

/-- Bytes that are stored one behind the other. -/
theorem foldl_store_byte (g : ℕ → UInt8) (n : ℕ) :
    ((List.range n).foldl (fun m j => m.store (a + j) (g j)) m).byte b =
      if a ≤ b ∧ b < a + n then g (b - a) else m.byte b := by
  induction n with
  | zero => rw [if_neg (by omega), List.range_zero, List.foldl_nil]
  | succ n ih =>
    rw [List.range_succ, List.foldl_concat, store_byte, Function.update_apply, ih]
    by_cases hb : b = a + n
    · rw [if_pos hb, if_pos (by omega), hb, Nat.add_sub_cancel_left]
    · rw [if_neg hb]
      exact if_congr (by omega) rfl rfl

/-- The bytes of a pointer. -/
theorem storePtr_byte (m : ByteMem) (a : ℕ) (p : Option ℕ) (b : ℕ) : (m.storePtr a p).byte b =
    if a ≤ b ∧ b < a + 8 then .ofNat (p.getD 0 % 2 ^ 64 / 2 ^ (8 * (b - a))) else m.byte b := by
  rw [storePtr, store64, foldl_store_byte]
  refine if_congr Iff.rfl ?_ rfl
  rw [← UInt8.toNat_inj, UInt8.toNat_ofNat']
  show (BitVec.extractLsb' _ _ _).toNat = _
  rw [BitVec.extractLsb'_toNat, BitVec.toNat_ofNat, Nat.shiftRight_eq_div_pow]

/-- The pointer that was stored is read. -/
theorem loadPtr_storePtr (m : ByteMem) (a : ℕ) (hp : ∀ x ∈ p, 0 < x ∧ x < 2 ^ 64) :
    (m.storePtr a p).loadPtr a = p := by
  have hlt : p.getD 0 < 2 ^ 64 := by
    cases p with
    | none => exact Nat.two_pow_pos 64
    | some x => exact (hp x rfl).2
  have hbyte : ∀ i < 8,
      ((m.storePtr a p).byte (a + i)).toNat = p.getD 0 / 2 ^ (8 * i) % 2 ^ 8 := by
    intro i hi
    rw [storePtr_byte, if_pos (by omega), UInt8.toNat_ofNat', Nat.mod_eq_of_lt hlt,
      Nat.add_sub_cancel_left]
  have hread : readU64 (m.storePtr a p).byte a = p.getD 0 := by
    have hfirst : ((m.storePtr a p).byte a).toNat = _ := hbyte 0 (by decide)
    simp only [readU64, readU32, Nat.add_assoc, Nat.reduceAdd, hfirst, hbyte 1 (by decide),
      hbyte 2 (by decide), hbyte 3 (by decide), hbyte 4 (by decide), hbyte 5 (by decide),
      hbyte 6 (by decide), hbyte 7 (by decide)]
    omega
  rw [loadPtr, hread]
  cases p with
  | none => rfl
  | some x => exact if_neg (Nat.pos_iff_ne_zero.mp (hp x rfl).1)

/-- A pointer is its eight bytes. -/
theorem loadPtr_congr (h : ∀ i < 8, m'.byte (a + i) = m.byte (a + i)) :
    m'.loadPtr a = m.loadPtr a := by
  have hread : readU64 m'.byte a = readU64 m.byte a := by
    simp only [readU64, readU32, Nat.add_assoc]
    rw [show m'.byte a = m.byte a from h 0 (by decide)]
    simp only [h 1 (by decide), h 2 (by decide), h 3 (by decide), h 4 (by decide), h 5 (by decide),
      h 6 (by decide), h 7 (by decide), Nat.reduceAdd]
  rw [loadPtr, loadPtr, hread]

end ByteMem

/-- The slab allocator with its memory in bytes. The `next` fields of the chunks are what the memory
says. -/
structure SlabBytes extends SlabState where
  mem : ByteMem
  next_eq : chunkNext = mem.loadPtr

namespace SlabBytes

/-- The state with a memory. -/
def withMem (s : SlabState) (m : ByteMem) : SlabBytes :=
  { s with
    chunkNext := m.loadPtr
    mem := m
    next_eq := rfl }

variable (t : SlabBytes)

/-- `kmem_get_chunk_from_slab`. -/
def kmemGetChunkFromSlab (slab : ℕ) : Option (ℕ × SlabBytes) :=
  (t.mem.slistPopFront (t.slab slab).freelist).map fun r =>
    (r.1, withMem (t.setFreelist slab r.2 ((t.slab slab).freeObjects - 1)) t.mem)

/-- The loop that pushes the chunks of a new slab on its freelist. -/
def carve (virtPage size n : ℕ) : ByteMem × Option ℕ :=
  (List.range n).foldl (fun r i => ByteMem.slistPushFront r.1 r.2 (virtPage + size * i))
    (t.mem, none)

/-- `kmem_cache_new_empty`, given what `alloc_pages` and `mempool_zalloc` return. -/
def kmemCacheNewEmpty (c : ℕ) (newPage newSlab : Option ℕ) : Option (Option ℤ × SlabBytes) :=
  match newPage, newSlab with
  | some page, some slab =>
    let cache := t.caches c
    let r := t.carve (t.pageToVirt page) cache.size cache.nObjects
    let s := { t.toSlabState with
      slab := Function.update t.slab slab ⟨some c, r.2, cache.nObjects⟩
      slabList :=
        { next := Function.update t.slabList.next slab none
          prev := Function.update t.slabList.prev slab none }
      pageSlab := t.assignPages page slab (1 <<< cache.order) }
    (s.kmemInsertSlab slab).map fun s => (some 0, withMem s r.1)
  | newPage, newSlab =>
    some (none, withMem { t.toSlabState with released := t.released ++
      [.freePages newPage (t.caches c).order, .mempoolFree newSlab] } t.mem)

/-- `kmem_cache_free_nolock`. -/
def kmemCacheFreeNolock (c chunk : ℕ) : Option SlabBytes := do
  let slab ← t.pageSlab (t.hhdmToPage chunk)
  let s := if (t.slab slab).freeObjects = 0 then t.removeSlab c .full slab else t.toSlabState
  let s := if (s.slab slab).freeObjects > 0 then s.removeSlab c .part slab else s
  let r := t.mem.slistPushFront (s.slab slab).freelist chunk
  let s := s.setFreelist slab r.2 ((s.slab slab).freeObjects + 1)
  (s.kmemInsertSlab slab).map fun s => withMem s r.1

/-- Somebody writes a byte. -/
def write (a : ℕ) (c : UInt8) : SlabBytes := withMem t.toSlabState (t.mem.store a c)

/-- The bytes of a chunk of a slab. -/
def bytes (b : SlabBlock) (x : ℕ) : Set ℕ := slotRange (t.caches b.cache).size x

/-- The bytes of the block of a slab. -/
def blockBytes (b : SlabBlock) : Set ℕ :=
  Set.Ico (t.pageToVirt b.page) (t.pageToVirt b.page + (t.caches b.cache).slabSize)

/-- The block is in an address space of 64 bits, and not at its start. -/
structure Addressable (s : SlabState) (b : SlabBlock) : Prop where
  low : 0 < s.pageToVirt b.page
  high : s.pageToVirt b.page + (s.caches b.cache).slabSize ≤ 2 ^ 64

/-- A new slab has a freelist of `N_OBJECTS` chunks that do not overlap, all inside its block, and
every page of the block points to the slab. -/
structure Carved (b : SlabBlock) (xs : List ℕ) : Prop where
  free : Walk t.mem.loadPtr (t.slab b.slab).freelist xs
  length : xs.length = (t.caches b.cache).nObjects
  freeObjects : (t.slab b.slab).freeObjects = (t.caches b.cache).nObjects
  apart : xs.Pairwise fun x y => Disjoint (t.bytes b x) (t.bytes b y)
  inside : ∀ x ∈ xs, t.bytes b x ⊆ t.blockBytes b
  pages : ∀ i < 1 <<< (t.caches b.cache).order, t.pageSlab (b.page + i) = some b.slab

end SlabBytes

/-- The allocator, and the chunks of a slab that are in use. -/
structure SlabUse where
  st : SlabBytes
  live : List ℕ

/-- One step: a chunk is taken, a chunk is given back, or somebody writes a byte. -/
inductive ChunkCall
  | get
  | put (chunk : ℕ)
  | write (a : ℕ) (c : UInt8)

namespace SlabUse

/-- One step on the slab `b`. -/
def exec (b : SlabBlock) (u : SlabUse) : ChunkCall → Option SlabUse
  | .get => (u.st.kmemGetChunkFromSlab b.slab).map fun r => ⟨r.2, r.1 :: u.live⟩
  | .put chunk => (u.st.kmemCacheFreeNolock b.cache chunk).map fun t => ⟨t, u.live.erase chunk⟩
  | .write a c => some ⟨u.st.write a c, u.live⟩

/-- The allocator takes chunks while there are some. What is given back is in use, and what is
written is inside a chunk in use. -/
def Allowed (b : SlabBlock) (u : SlabUse) : ChunkCall → Prop
  | .get => (u.st.slab b.slab).freeObjects > 0
  | .put chunk => chunk ∈ u.live
  | .write a _ => ∃ x ∈ u.live, a ∈ u.st.bytes b x

/-- `free_objects` is the length of the freelist, and the free chunks together with those in use are
the chunks `xs`, each once. -/
def Accounted (b : SlabBlock) (u : SlabUse) (xs : List ℕ) : Prop :=
  ∃ free, Walk u.st.mem.loadPtr (u.st.slab b.slab).freelist free ∧
    (u.st.slab b.slab).freeObjects = free.length ∧ (free ++ u.live).Perm xs

end SlabUse

/-! ### Pointers that are stored somewhere else -/

namespace ByteMem

variable {m : ByteMem} {a z : ℕ} {c : UInt8} {p : Option ℕ}

theorem loadPtr_storePtr_of_disjoint (h : z + 8 ≤ a ∨ a + 8 ≤ z) :
    (m.storePtr a p).loadPtr z = m.loadPtr z :=
  loadPtr_congr fun i hi => by rw [storePtr_byte, if_neg (by omega)]

theorem loadPtr_store_of_notMem (h : a < z ∨ z + 8 ≤ a) :
    (m.store a c).loadPtr z = m.loadPtr z :=
  loadPtr_congr fun i hi => by rw [store_byte, Function.update_of_ne (by omega)]

end ByteMem

namespace SlabBytes

variable {t : SlabBytes} {s : SlabState} {m : ByteMem} {b : SlabBlock} {F U : List ℕ}
  {a n x y z base size : ℕ} {c : UInt8}

/-! ### The list of a new slab -/

theorem carve_succ (base size n : ℕ) : t.carve base size (n + 1) =
    ((t.carve base size n).1.storePtr (base + size * n) (t.carve base size n).2,
      some (base + size * n)) := by
  simp only [carve, List.range_succ, List.foldl_append, List.foldl_cons, List.foldl_nil,
    ByteMem.slistPushFront]

/-- **The loop over a new block** leaves a list of its chunks, last one first. Each pointer is
stored in front of all that is left of the block. -/
theorem carve_spec (hsize : 8 ≤ size) (hlow : 0 < base) (hhigh : base + size * n ≤ 2 ^ 64) :
    Walk (t.carve base size n).1.loadPtr (t.carve base size n).2 (slots base size n).reverse := by
  induction n with
  | zero => rfl
  | succ n ih =>
    rw [Nat.mul_succ] at hhigh
    have hwalk := ih (by omega)
    rw [carve_succ, slots_succ, List.reverse_append, List.reverse_singleton, List.singleton_append,
      walk_cons]
    dsimp only
    rw [ByteMem.loadPtr_storePtr]
    · refine ⟨rfl, hwalk.congr fun z hz => ByteMem.loadPtr_storePtr_of_disjoint (.inl ?_)⟩
      have hle := add_le_of_mem_slots (List.mem_reverse.mp hz)
      omega
    · intro x hx
      rw [hwalk.head_eq] at hx
      have hmem := List.mem_reverse.mp (List.mem_of_mem_head? hx)
      have hle := add_le_of_mem_slots hmem
      have hge := le_of_mem_slots hmem
      omega

/-- The head of the list is the last chunk. -/
theorem carve_head (t : SlabBytes) (hsize : 8 ≤ size) (hlow : 0 < base)
    (hhigh : base + size * n ≤ 2 ^ 64) :
    (t.carve base size n).2 = (t.toSlabState.carve base size n).2 := by
  have hwalk := (SlabState.carve_spec (s := t.toSlabState) (by omega : 0 < size) base n).1
  rw [(carve_spec hsize hlow hhigh).head_eq, hwalk.head_eq]
  rfl

/-! ### Steps -/

/-- The freelist in memory is all that a slab knows of the memory. -/
theorem slabOk_withMem (ho : s.SlabOk b F U)
    (hfree : Walk m.loadPtr (s.slab b.slab).freelist F) : (withMem s m).SlabOk b F U :=
  ⟨ho.wellFormed, ho.cache, ho.pageSlab, hfree, ho.freeObjects, ho.perm⟩

theorem walk_mem (ho : t.SlabOk b F U) : Walk t.mem.loadPtr (t.slab b.slab).freelist F :=
  t.next_eq ▸ ho.free

/-- The chunks of a slab are slots of its block. -/
theorem mem_slots_chunks (hx : x ∈ s.chunks b) : x ∈ slots (s.pageToVirt b.page)
    (s.caches b.cache).size ((s.caches b.cache).slabSize / (s.caches b.cache).size) := hx

/-- The address of a chunk is one of 64 bits, and not null. -/
theorem Addressable.chunk (h : Addressable s b) (hw : (s.caches b.cache).WellFormed)
    (hx : x ∈ s.chunks b) : 0 < x ∧ x < 2 ^ 64 := by
  have hroom := hw.room
  have hmem := slotRange_subset (mem_slots_chunks hx) ⟨Nat.le_refl x, by omega⟩
  have hlow := h.low
  have hhigh := h.high
  rw [Set.mem_Ico] at hmem
  omega

/-- Two different chunks are at least eight bytes apart. -/
theorem chunk_apart (hw : (s.caches b.cache).WellFormed) (hx : x ∈ s.chunks b)
    (hy : y ∈ s.chunks b) (hne : x ≠ y) : x + 8 ≤ y ∨ y + 8 ≤ x := by
  have hroom := hw.room
  have hdisj := disjoint_slotRange (mem_slots_chunks hx) (mem_slots_chunks hy) hne
  by_contra hnot
  have hmax : max x y ∈ slotRange (s.caches b.cache).size x := mem_slotRange.mpr (by omega)
  have hmax' : max x y ∈ slotRange (s.caches b.cache).size y := mem_slotRange.mpr (by omega)
  exact Set.disjoint_left.mp hdisj hmax hmax'

/-- **`kmem_get_chunk_from_slab`** takes the first free chunk. -/
theorem kmemGetChunkFromSlab_eq (ho : t.SlabOk b (y :: F) U) :
    ∃ t', t.kmemGetChunkFromSlab b.slab = some (y, t') ∧ t'.SlabOk b F (y :: U) ∧
      t.SameLayout t'.toSlabState := by
  obtain ⟨hhead, hwalk⟩ := walk_mem ho
  refine ⟨withMem (t.setFreelist b.slab (t.mem.loadPtr y) ((t.slab b.slab).freeObjects - 1)) t.mem,
    ?_, ?_, ⟨rfl, fun _ => rfl, fun _ => rfl⟩⟩
  · rw [kmemGetChunkFromSlab, ByteMem.slistPopFront, hhead]
    rfl
  · rw [← t.next_eq]
    refine slabOk_withMem ho.take ?_
    rw [SlabState.slab_setFreelist, t.next_eq]
    exact hwalk

/-- `kmem_insert_slab` knows nothing of the chunks. -/
theorem kmemInsertSlab_withMem {α : Type} (g : SlabBytes → α) (s : SlabState)
    (next : ℕ → Option ℕ) (m : ByteMem) (x : ℕ) :
    ((s.kmemInsertSlab x).map fun s => g (withMem s m)) =
      ({ s with chunkNext := next }.kmemInsertSlab x).map fun s => g (withMem s m) := by
  show Option.map _ (Option.map _ (s.slab x).cache) = Option.map _ (Option.map _ (s.slab x).cache)
  cases (s.slab x).cache with
  | none => rfl
  | some c => rfl

/-- The pointer in the chunk is the only thing that `kmem_cache_free_nolock` stores to memory. -/
theorem kmemCacheFreeNolock_map (hp : t.pageSlab (t.hhdmToPage y) = some b.slab) :
    t.kmemCacheFreeNolock b.cache y = (t.toSlabState.kmemCacheFreeNolock b.cache y).map fun s =>
      withMem s (t.mem.storePtr y (t.slab b.slab).freelist) := by
  rw [kmemCacheFreeNolock, SlabState.kmemCacheFreeNolock, hp]
  simp only [Option.bind_eq_bind, Option.bind_some]
  by_cases hfull : (t.slab b.slab).freeObjects = 0
  · have hnot : ¬ ((t.removeSlab b.cache .full b.slab).slab b.slab).freeObjects > 0 :=
      Int.not_lt.mpr (Int.le_of_eq hfull)
    simp only [if_pos hfull, if_neg hnot]
    exact kmemInsertSlab_withMem id _ _ _ _
  · by_cases hpart : (t.slab b.slab).freeObjects > 0
    · simp only [if_neg hfull, if_pos hpart]
      exact kmemInsertSlab_withMem id _ _ _ _
    · simp only [if_neg hfull, if_neg hpart]
      exact kmemInsertSlab_withMem id _ _ _ _

/-- **`kmem_cache_free_nolock`** puts a chunk in front of the free ones. -/
theorem kmemCacheFreeNolock_eq (ho : t.SlabOk b F U) (haddr : Addressable t.toSlabState b)
    (hy : y ∈ U) :
    ∃ t', t.kmemCacheFreeNolock b.cache y = some t' ∧ t'.SlabOk b (y :: F) (U.erase y) ∧
      t.SameLayout t'.toSlabState := by
  have hchunk : ∀ {z}, z ∈ F ++ U → z ∈ t.chunks b := fun hz => ho.perm.subset hz
  have hp := ho.pageSlab _ (ho.mem_pages (List.mem_append_right F hy))
  have hlay : t.SameLayout (t.giveChunk b y) := SlabState.sameLayout_giveChunk
  have hwalk := walk_mem ho
  rw [kmemCacheFreeNolock_map hp, SlabState.kmemCacheFreeNolock_eq hp ho hy]
  refine ⟨_, rfl, slabOk_withMem ((ho.giveChunk hy).pushSlab _ _) ?_, ?_⟩
  · show Walk _ ((t.giveChunk b y).slab b.slab).freelist (y :: F)
    rw [SlabState.slab_giveChunk, walk_cons, ByteMem.loadPtr_storePtr]
    · refine ⟨rfl, hwalk.congr fun z hz => ByteMem.loadPtr_storePtr_of_disjoint ?_⟩
      have hne : z ≠ y := fun heq => (List.nodup_append.mp ho.nodup).2.2 z hz y hy heq
      exact chunk_apart ho.wellFormed (hchunk (List.mem_append_left U hz))
        (hchunk (List.mem_append_right F hy)) hne
    · intro x hx
      rw [hwalk.head_eq] at hx
      exact haddr.chunk ho.wellFormed
        (hchunk (List.mem_append_left U (List.mem_of_mem_head? hx)))
  · have hlay' := hlay.trans (SlabState.sameLayout_pushSlab _ ((t.giveChunk b y).listOf b) b.slab)
    exact ⟨hlay'.hhdmOffset, hlay'.size, hlay'.order⟩

/-- **A write** into a chunk in use leaves the freelist as it was. -/
theorem slabOk_write (ho : t.SlabOk b F U) (hx : x ∈ U) (ha : a ∈ t.bytes b x) (c : UInt8) :
    (t.write a c).SlabOk b F U := by
  refine slabOk_withMem ho ((walk_mem ho).congr fun z hz =>
    ByteMem.loadPtr_store_of_notMem ?_)
  have hne : z ≠ x := fun heq => (List.nodup_append.mp ho.nodup).2.2 z hz x hx heq
  have hroom := ho.wellFormed.room
  have hdisj := disjoint_slotRange (mem_slots_chunks (ho.perm.subset (List.mem_append_left U hz)))
    (mem_slots_chunks (ho.perm.subset (List.mem_append_right F hx))) hne
  by_contra hnot
  exact Set.disjoint_left.mp hdisj (mem_slotRange.mpr (by omega)) ha

/-- **`kmem_cache_new_empty`** builds a slab whose chunks are all free. -/
theorem kmemCacheNewEmpty_eq (hw : (t.caches b.cache).WellFormed)
    (haddr : Addressable t.toSlabState b) :
    ∃ t', t.kmemCacheNewEmpty b.cache (some b.page) (some b.slab) = some (some 0, t') ∧
      t'.SlabOk b (t.chunks b).reverse [] ∧ t.SameLayout t'.toSlabState := by
  have hfit : t.pageToVirt b.page + (t.caches b.cache).size * (t.caches b.cache).nObjects ≤
      2 ^ 64 := (Nat.add_le_add_left (Nat.mul_div_le _ _) _).trans haddr.high
  have hhead := carve_head t hw.room haddr.low hfit
  have hwalk := carve_spec (t := t) hw.room haddr.low hfit
  have hslabs : t.SlabsOk [] (fun _ => []) (fun _ => []) :=
    ⟨fun a ha => absurd ha List.not_mem_nil, fun a ha => absurd ha List.not_mem_nil,
      fun a ha => absurd ha List.not_mem_nil⟩
  have hbuild := (hslabs.buildSlab hw (fun a ha => absurd ha List.not_mem_nil)
    fun a ha => absurd ha List.not_mem_nil).slabOk b List.mem_cons_self
  rw [Function.update_self, Function.update_self] at hbuild
  have hlay := (SlabState.sameLayout_buildSlab (s := t.toSlabState) (b := b)).trans
    (SlabState.sameLayout_pushSlab _ (b.cache, .empty) b.slab)
  refine ⟨withMem ((t.buildSlab b).pushSlab b.cache .empty b.slab) (t.carve (t.pageToVirt b.page)
    (t.caches b.cache).size (t.caches b.cache).nObjects).1, ?_,
    slabOk_withMem (hbuild.pushSlab (b.cache, .empty) b.slab) ?_,
    ⟨hlay.hhdmOffset, hlay.size, hlay.order⟩⟩
  · have hinsert := SlabState.kmemInsertSlab_eq (s := t.buildSlab b) (b := b)
      (by rw [SlabState.slab_buildSlab])
    rw [SlabState.listOf_buildSlab] at hinsert
    rw [kmemCacheNewEmpty]
    dsimp only
    rw [hhead, kmemInsertSlab_withMem (fun t' => (some (0 : ℤ), t')) _
      (t.toSlabState.carve (t.pageToVirt b.page) (t.caches b.cache).size
        (t.caches b.cache).nObjects).1]
    exact congrArg (Option.map _) hinsert
  · show Walk _ ((t.buildSlab b).slab b.slab).freelist _
    rw [SlabState.slab_buildSlab, ← hhead]
    exact hwalk

/-- What a new slab is. -/
theorem carved_of_slabOk {xs : List ℕ} (ho : t.SlabOk b xs []) : t.Carved b xs where
  free := walk_mem ho
  length := by
    have hlen := ho.length_add
    rwa [List.length_nil, Nat.add_zero] at hlen
  freeObjects := by
    have hlen := ho.length_add
    rw [List.length_nil, Nat.add_zero] at hlen
    rw [ho.freeObjects, hlen]
  apart := by
    have hnodup := ho.nodup
    have hperm := ho.perm
    rw [List.append_nil] at hnodup hperm
    exact List.Pairwise.imp_of_mem (fun hx hy hne => disjoint_slotRange (mem_slots_chunks
      (hperm.subset hx)) (mem_slots_chunks (hperm.subset hy)) hne) hnodup
  inside x hx := slotRange_subset (mem_slots_chunks (ho.perm.subset (List.mem_append_left [] hx)))
  pages i hi := by
    rw [Nat.one_shiftLeft] at hi
    exact ho.pageSlab _ ⟨Nat.le_add_right _ _, Nat.add_lt_add_left hi _⟩

end SlabBytes

/-! ### Runs -/

namespace SlabUse

variable {u u' : SlabUse} {b : SlabBlock} {cs : List ℕ} {c : ChunkCall}

/-- The slab is sound, and its chunks are `cs`. -/
structure Inv (b : SlabBlock) (cs : List ℕ) (u : SlabUse) : Prop where
  slabOk : ∃ free, u.st.SlabOk b free u.live
  addressable : SlabBytes.Addressable u.st.toSlabState b
  chunks : u.st.chunks b = cs

/-- A call that keeps the layout. -/
theorem Inv.of_sameLayout (h : u.Inv b cs) (hl : u.st.SameLayout u'.st.toSlabState)
    (ho : ∃ free, u'.st.SlabOk b free u'.live) : u'.Inv b cs where
  slabOk := ho
  addressable := by
    refine ⟨?_, ?_⟩
    · rw [SlabState.pageToVirt, hl.hhdmOffset]
      exact h.addressable.low
    · rw [SlabState.pageToVirt, hl.hhdmOffset, KmemCache.slabSize, hl.order]
      exact h.addressable.high
  chunks := (hl.chunks b).trans h.chunks

/-- **One step.** An allowed call returns, and keeps the slab sound. -/
theorem exec_inv (h : u.Inv b cs) (hc : u.Allowed b c) :
    ∃ u', u.exec b c = some u' ∧ u'.Inv b cs := by
  obtain ⟨free, ho⟩ := h.slabOk
  cases c with
  | get =>
    have hpos : (u.st.slab b.slab).freeObjects > 0 := hc
    rw [ho.freeObjects] at hpos
    have hlen : 0 < free.length := by omega
    obtain ⟨y, G, rfl⟩ := List.exists_cons_of_ne_nil (List.length_pos_iff.mp hlen)
    obtain ⟨t, hget, hok, hlay⟩ := SlabBytes.kmemGetChunkFromSlab_eq ho
    exact ⟨⟨t, y :: u.live⟩, by rw [exec, hget]; rfl, h.of_sameLayout hlay ⟨G, hok⟩⟩
  | put chunk =>
    obtain ⟨t, hput, hok, hlay⟩ := SlabBytes.kmemCacheFreeNolock_eq ho h.addressable hc
    exact ⟨⟨t, u.live.erase chunk⟩, by rw [exec, hput]; rfl, h.of_sameLayout hlay ⟨_, hok⟩⟩
  | write a c =>
    obtain ⟨x, hx, ha⟩ := hc
    exact ⟨_, rfl, h.of_sameLayout ⟨rfl, fun _ => rfl, fun _ => rfl⟩
      ⟨free, SlabBytes.slabOk_write ho hx ha c⟩⟩

end SlabUse

/-- **The chunks of a slab.** `kmem_cache_new_empty` builds a slab out of chunks that do not
overlap. However chunks are taken and given back after that, and whatever is written into those in
use, the freelist has as many chunks as `free_objects` says, and no chunk is lost or there twice. -/
theorem slab_chunks (t : SlabBytes) (b : SlabBlock) (hw : (t.caches b.cache).WellFormed)
    (haddr : SlabBytes.Addressable t.toSlabState b) :
    ∃ t₀ xs, t.kmemCacheNewEmpty b.cache (some b.page) (some b.slab) = some (some 0, t₀) ∧
      t₀.Carved b xs ∧ ∀ calls u, Run (SlabUse.exec b) (SlabUse.Allowed b) ⟨t₀, []⟩ calls u →
        u.Accounted b xs ∧ ∀ c, u.Allowed b c → (u.exec b c).isSome := by
  obtain ⟨t₀, hnew, hok, hlay⟩ := SlabBytes.kmemCacheNewEmpty_eq hw haddr
  have hinv : SlabUse.Inv b (t₀.chunks b) ⟨t₀, []⟩ := by
    refine ⟨⟨_, hok⟩, ⟨?_, ?_⟩, rfl⟩
    · rw [SlabState.pageToVirt, hlay.hhdmOffset]
      exact haddr.low
    · rw [SlabState.pageToVirt, hlay.hhdmOffset, KmemCache.slabSize, hlay.order]
      exact haddr.high
  refine ⟨t₀, _, hnew, SlabBytes.carved_of_slabOk hok, fun calls u hrun => ?_⟩
  have hu : u.Inv b (t₀.chunks b) := by
    refine hrun.invariant (fun v c v' hv hc hstep => ?_) hinv
    obtain ⟨v₁, hexec, hv₁⟩ := SlabUse.exec_inv hv hc
    obtain rfl := Option.some.inj (hstep.symm.trans hexec)
    exact hv₁
  obtain ⟨free, ho⟩ := hu.slabOk
  refine ⟨⟨free, SlabBytes.walk_mem ho, ho.freeObjects, ?_⟩, fun c hc => ?_⟩
  · rw [← hlay.chunks b]
    exact (hu.chunks ▸ ho.perm).trans (List.reverse_perm _).symm
  · obtain ⟨u', hexec, -⟩ := SlabUse.exec_inv hu hc
    rw [hexec]
    rfl

/-- A cache with chunks of twelve bytes, and memory that is zero. -/
def slabBytesStart : SlabBytes := SlabBytes.withMem
  { caches := fun _ => ⟨12, 1, fun _ => none, fun _ => 0⟩
    slab := fun _ => ⟨none, none, 0⟩
    slabList := ⟨fun _ => none, fun _ => none⟩
    pageSlab := fun _ => none
    chunkNext := fun _ => none
    hhdmOffset := 0xffff800000000000
    released := [] } ⟨fun _ => 0, []⟩

/-- A slab of two pages. -/
theorem slab_chunks_12 : ∃ t₀ xs,
    slabBytesStart.kmemCacheNewEmpty 0 (some 2) (some 0x1000) = some (some 0, t₀) ∧
      t₀.Carved ⟨0, 2, 0x1000⟩ xs ∧ ∀ calls u,
        Run (SlabUse.exec ⟨0, 2, 0x1000⟩) (SlabUse.Allowed ⟨0, 2, 0x1000⟩) ⟨t₀, []⟩ calls u →
          u.Accounted ⟨0, 2, 0x1000⟩ xs ∧
            ∀ c, u.Allowed ⟨0, 2, 0x1000⟩ c → (u.exec ⟨0, 2, 0x1000⟩ c).isSome :=
  slab_chunks slabBytesStart ⟨0, 2, 0x1000⟩ (by decide) ⟨by decide, by decide⟩

end GoofyOs
