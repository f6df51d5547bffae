import GoofyOs.Buddy
import GoofyOs.ForMathlib.Run
import GoofyOs.ForMathlib.Slots
import GoofyOs.ListHead

/-!
# The memory pools of `mm/mempool.c`

A pool takes blocks of pages and cuts them into chunks, which it keeps on one list. A free chunk
holds a `struct list_head`, and the first page of a block counts the free chunks of the block.

`alloc_pages` enters as the block that it returns, named by its first frame. The field
`page->mempool` is written and never read, and is left out, as is the lock.

`mempool->count` is set when a block is cut up and is never changed after that. So the pool never
takes a second block, and pops from an empty list when the chunks of the first one are gone. And when
all chunks of the block are free, the block is given back with its chunks still on the list.

## Main definitions

* `MempoolState` — the pool and the memory it works on
* `mempoolInit`, `mempoolAllocNolock`, `mempoolFreeNolock` — the functions of the source
* `MempoolSys`, `MempoolCall` — the pool with the chunks in use and its blocks
* `MempoolSys.Inv` — what holds in every run

## Main results

* `mempoolAlloc_returns_iff` — an allocation does what it should if and only if a chunk of the first
  block is not in use
* `mempool_sound` — the chunks stay in blocks of the pool as long as no call
  frees the last chunk in use
-/

namespace GoofyOs

open LinkedList ListHead

/-- `struct mempool`, and the memory. -/
structure MempoolState where
  freelist : Option ℕ
  count : ℕ
  size : ℕ
  order : ℕ
  /-- the `struct list_head` at the start of a free chunk -/
  links : Links ℕ
  /-- `page->n_free` -/
  nFree : ℕ → ℕ
  hhdmOffset : ℕ

namespace MempoolState

variable (s : MempoolState)

/-- `page_to_virt`. -/
def pageToVirt (page : ℕ) : ℕ := (page <<< 12) + s.hhdmOffset

/-- `__hhdm_to_page`. -/
def hhdmToPage (addr : ℕ) : ℕ := (addr - s.hhdmOffset) >>> 12

/-- `base_page` for the order of the pool. -/
def basePage (page : ℕ) : ℕ := page >>> s.order <<< s.order

/-- The number of chunks of a block. -/
def maxCount : ℕ := (pageSize <<< s.order) / s.size

/-- `mempool_init`. It does not return for sizes that are too small or too large. -/
def mempoolInit (size order : ℕ) : Option MempoolState :=
  if size < 16 then none
  else if size > pageSize then none
  else some { s with freelist := none, count := 0, size := size, order := order }

/-- `mempool_free_nolock`, with the block that it passes to `free_pages`. -/
def mempoolFreeNolock (chunk : ℕ) : MempoolState × Option ℕ :=
  let base := s.basePage (s.hhdmToPage chunk)
  let r := listPushFront s.links s.freelist chunk
  let s := { s with
    links := r.1
    freelist := r.2
    nFree := Function.update s.nFree base (asUint (s.nFree base + 1)) }
  (s, if s.nFree base = s.maxCount then some base else none)

/-- The first branch of `mempool_alloc_nolock`. -/
def popChunk : Option (Option ℕ × MempoolState) :=
  (listPopFront s.links s.freelist).map fun r =>
    let base := s.basePage (s.hhdmToPage r.1)
    (some r.1, { s with
      freelist := r.2
      nFree := Function.update s.nFree base (asUint (s.nFree base + (2 ^ 32 - 1))) })

/-- The loop that pushes the chunks of a new block. -/
def carve (newPage n : ℕ) : Links ℕ × Option ℕ :=
  (List.range n).foldl (fun r i => listPushFront r.1 r.2 (newPage + s.size * i)) (s.links, none)

/-- Cutting up a new block. -/
def refill (page : ℕ) : MempoolState :=
  let r := s.carve (s.pageToVirt page) s.maxCount
  { s with
    links := r.1
    count := s.maxCount
    freelist := r.2
    nFree := Function.update s.nFree page s.maxCount }

/-- `mempool_alloc_nolock`, when `alloc_pages` returns `pages`. The call of itself at the end takes
the first branch, as `mempool->count` is not zero then. -/
def mempoolAllocNolock (pages : Option ℕ) : Option (Option ℕ × MempoolState) :=
  if s.count > 0 then s.popChunk
  else
    match pages with
    | none => some (none, s)
    | some page => (s.refill page).popChunk

/-! ### The chunks of a block -/

/-- The addresses of the chunks of a block. -/
def chunks (page : ℕ) : List ℕ := (List.range s.maxCount).map fun i => s.pageToVirt page + s.size * i

/-- The bytes of a chunk. -/
def bytes (chunk : ℕ) : Set ℕ := Set.Ico chunk (chunk + s.size)

/-- The bytes of a block. -/
def blockBytes (page : ℕ) : Set ℕ :=
  Set.Ico (s.pageToVirt page) (s.pageToVirt page + pageSize <<< s.order)

/-- What `mempool_init` checks. -/
structure SizeOk (s : MempoolState) : Prop where
  low : 16 ≤ s.size
  high : s.size ≤ pageSize

variable {s} {page chunk x y z : ℕ} {xs : List ℕ}

theorem SizeOk.maxCount_pos (h : s.SizeOk) : 0 < s.maxCount := by
  refine Nat.div_pos (Nat.le_trans h.high ?_) (Nat.lt_of_lt_of_le (by decide) h.low)
  rw [Nat.shiftLeft_eq]
  exact Nat.le_mul_of_pos_right _ (Nat.two_pow_pos _)

/-- The numbers of chunks fit in an `unsigned int`. -/
theorem maxCount_lt (h : s.order ≤ maxOrder) : s.maxCount < 2 ^ 32 := by
  have hpow : 2 ^ s.order ≤ 2 ^ 15 := Nat.pow_le_pow_right (by decide) h
  refine Nat.lt_of_le_of_lt (Nat.div_le_self _ _) ?_
  rw [Nat.shiftLeft_eq, show pageSize = 4096 from rfl]
  omega

theorem length_chunks (s : MempoolState) (page : ℕ) : (s.chunks page).length = s.maxCount :=
  length_slots _ _ _

/-- A chunk lies in its block. -/
theorem bytes_subset_block (hx : x ∈ s.chunks page) : s.bytes x ⊆ s.blockBytes page :=
  slotRange_subset hx

/-- Different chunks of a block do not overlap. -/
theorem disjoint_bytes (hx : x ∈ s.chunks page) (hy : y ∈ s.chunks page) (hne : x ≠ y) :
    Disjoint (s.bytes x) (s.bytes y) :=
  disjoint_slotRange hx hy hne

theorem nodup_chunks (h : s.SizeOk) : (s.chunks page).Nodup :=
  nodup_slots (Nat.lt_of_lt_of_le (by decide) h.low) _ _

/-- `base_page` finds the first page of the block of a chunk. -/
theorem basePage_chunk (h : s.SizeOk) (halign : 2 ^ s.order ∣ page) (hx : x ∈ s.chunks page) :
    s.basePage (s.hhdmToPage x) = page := by
  have hsub := bytes_subset_block hx
  have hsize := h.low
  have hmem : x ∈ s.blockBytes page := hsub ⟨Nat.le_refl x, by omega⟩
  obtain ⟨m, rfl⟩ := halign
  rw [blockBytes, pageToVirt, Set.mem_Ico, Nat.shiftLeft_eq, Nat.shiftLeft_eq,
    show pageSize = 2 ^ 12 from rfl] at hmem
  have hle : 2 ^ s.order * m ≤ s.hhdmToPage x := by
    rw [hhdmToPage, Nat.shiftRight_eq_div_pow]
    exact (Nat.le_div_iff_mul_le (by decide)).mpr (by omega)
  have hlt : s.hhdmToPage x < 2 ^ s.order * m + 2 ^ s.order := by
    rw [hhdmToPage, Nat.shiftRight_eq_div_pow]
    refine (Nat.div_lt_iff_lt_mul (by decide)).mpr ?_
    rw [Nat.add_mul, Nat.mul_comm (2 ^ s.order) (2 ^ 12)]
    omega
  have hdiv : s.hhdmToPage x / 2 ^ s.order = m := by
    refine Nat.div_eq_of_lt_le ?_ ?_
    · rwa [Nat.mul_comm]
    · rwa [Nat.succ_mul, Nat.mul_comm m]
  rw [basePage, Nat.shiftRight_eq_div_pow, Nat.shiftLeft_eq, hdiv, Nat.mul_comm]

/-- The loop that cuts up a block leaves a list of its chunks. -/
theorem walk_carve (hsize : 0 < s.size) (newPage n : ℕ) :
    Walk (s.carve newPage n).1.next (s.carve newPage n).2
      ((List.range n).map fun i => newPage + s.size * i).reverse := by
  induction n with
  | zero => rfl
  | succ n ih =>
    have hstep : s.carve newPage (n + 1) =
        listPushFront (s.carve newPage n).1 (s.carve newPage n).2 (newPage + s.size * n) := by
      rw [carve, carve, List.range_succ, List.foldl_append]
      rfl
    rw [hstep, List.range_succ, List.map_append, List.map_singleton, List.reverse_append,
      List.reverse_singleton, List.singleton_append, walk_cons, listPushFront_head,
      listPushFront_next, if_pos rfl]
    refine ⟨rfl, ih.congr fun z hz => ?_⟩
    rw [listPushFront_next, if_neg]
    rintro rfl
    obtain ⟨i, hi, heq⟩ := List.mem_map.mp (List.mem_reverse.mp hz)
    have heq := Nat.eq_of_mul_eq_mul_left hsize (Nat.add_left_cancel heq)
    exact Nat.ne_of_lt (List.mem_range.mp hi) heq

/-! ### The pool after it took a block -/

/-- The pool has cut up the block `page`. Its list visits the chunks `xs`, and the others are `live`. -/
structure Filled (s : MempoolState) (live : List ℕ) (page : ℕ) (xs : List ℕ) : Prop where
  sizeOk : s.SizeOk
  order : s.order ≤ maxOrder
  align : 2 ^ s.order ∣ page
  count : s.count = s.maxCount
  walk : Walk s.links.next s.freelist xs
  perm : (xs ++ live).Perm (s.chunks page)
  nFree : s.nFree page = xs.length

namespace Filled

variable {live : List ℕ}

theorem mem_chunks (h : s.Filled live page xs) (hx : x ∈ xs ++ live) : x ∈ s.chunks page :=
  h.perm.subset hx

theorem length_eq (h : s.Filled live page xs) : xs.length + live.length = s.maxCount := by
  rw [← List.length_append, h.perm.length_eq, length_chunks]

theorem nodup (h : s.Filled live page xs) : (xs ++ live).Nodup :=
  h.perm.nodup_iff.mpr (nodup_chunks h.sizeOk)

/-- **`mempool_alloc`** of the first chunk of the list. -/
theorem popChunk (h : s.Filled live page (x :: xs)) :
    ∃ s', s.popChunk = some (some x, s') ∧ s'.Filled (x :: live) page xs := by
  obtain ⟨hhead, hwalk⟩ := h.walk
  have hbase := basePage_chunk h.sizeOk h.align (h.mem_chunks List.mem_cons_self)
  have hlen := h.length_eq
  have hlt := maxCount_lt h.order
  rw [List.length_cons] at hlen
  refine ⟨_, by rw [MempoolState.popChunk, listPopFront, hhead]; rfl, ?_⟩
  refine ⟨⟨h.sizeOk.low, h.sizeOk.high⟩, h.order, h.align, h.count, hwalk, ?_, ?_⟩
  · exact List.perm_middle.trans h.perm
  · show Function.update s.nFree (s.basePage (s.hhdmToPage x)) _ page = _
    rw [hbase, Function.update_self, h.nFree, List.length_cons, asUint_pred (Nat.succ_pos _) (by omega)]
    rfl

/-- On an empty list the call reads through a null pointer. -/
theorem popChunk_nil (h : s.Filled live page []) : s.popChunk = none := by
  have hhead : s.freelist = none := h.walk
  rw [MempoolState.popChunk, listPopFront, hhead]
  rfl

/-- **`mempool_free`**. The block goes back when no other chunk is in use. -/
theorem mempoolFreeNolock (h : s.Filled live page xs) (hx : x ∈ live) :
    (s.mempoolFreeNolock x).1.Filled (live.erase x) page (x :: xs) ∧
      (s.mempoolFreeNolock x).2 = if live = [x] then some page else none := by
  have hchunk := h.mem_chunks (List.mem_append_right xs hx)
  have hbase := basePage_chunk h.sizeOk h.align hchunk
  have hlen := h.length_eq
  have hpos := List.length_pos_of_mem hx
  have hlt := maxCount_lt h.order
  have hnd := h.nodup
  have hnew : Function.update s.nFree (s.basePage (s.hhdmToPage x))
      (asUint (s.nFree (s.basePage (s.hhdmToPage x)) + 1)) page = xs.length + 1 := by
    rw [hbase, Function.update_self, h.nFree, asUint_of_lt (by omega)]
  constructor
  · refine ⟨⟨h.sizeOk.low, h.sizeOk.high⟩, h.order, h.align, h.count, ?_, ?_, hnew⟩
    · show Walk (listPushFront s.links s.freelist x).1.next (some x) (x :: xs)
      rw [walk_cons, listPushFront_next, if_pos rfl]
      refine ⟨rfl, h.walk.congr fun y hy => ?_⟩
      rw [listPushFront_next, if_neg]
      rintro rfl
      exact (List.nodup_append.mp hnd).2.2 y hy y hx rfl
    · exact ((List.perm_cons_erase hx).symm.append_left xs |>.symm.trans List.perm_middle).symm.trans
        h.perm
  · have hiff : xs.length + 1 = s.maxCount ↔ live = [x] := by
      constructor
      · intro heq
        obtain ⟨y, rfl⟩ := List.length_eq_one_iff.mp (show live.length = 1 by omega)
        rw [List.mem_singleton.mp hx]
      · rintro rfl
        exact hlen
    show (if Function.update s.nFree (s.basePage (s.hhdmToPage x)) _ (s.basePage (s.hhdmToPage x)) =
      s.maxCount then some (s.basePage (s.hhdmToPage x)) else none) = _
    rw [hbase] at hnew ⊢
    rw [hnew, if_congr hiff rfl rfl]

end Filled

/-- Once there was a block, an allocation pops a chunk. -/
theorem mempoolAllocNolock_of_pos {pages : Option ℕ} (h : s.count > 0) :
    s.mempoolAllocNolock pages = s.popChunk := if_pos h

/-- Cutting up a block when no chunk is in use. -/
theorem filled_refill (hsize : s.SizeOk) (ho : s.order ≤ maxOrder) (halign : 2 ^ s.order ∣ page) :
    (s.refill page).Filled [] page (s.chunks page).reverse := by
  refine ⟨⟨hsize.low, hsize.high⟩, ho, halign, rfl, ?_, ?_, ?_⟩
  · have hpos : 0 < s.size := Nat.lt_of_lt_of_le (by decide) hsize.low
    exact walk_carve hpos _ _
  · rw [List.append_nil]
    exact List.reverse_perm _
  · show Function.update s.nFree page s.maxCount page = _
    rw [Function.update_self, List.length_reverse, length_chunks]

end MempoolState

/-! ### Whole runs -/

/-- One call, with what `alloc_pages` returns if it is called; or a write of an owner to the first
words of its chunk. -/
inductive MempoolCall
  | alloc (pages : Option ℕ)
  | free (chunk : ℕ)
  | write (chunk : ℕ) (next prev : Option ℕ)

/-- The pool, the chunks in use, the blocks that it ever took, and those that it did not give back. -/
structure MempoolSys where
  st : MempoolState
  live : List ℕ
  blocks : List ℕ
  owned : List ℕ

namespace MempoolSys

open MempoolState

variable {sys sys' : MempoolSys} {call : MempoolCall} {calls : List MempoolCall}
  {pages ret : Option ℕ} {page chunk : ℕ} {xs : List ℕ}

/-- The block that an allocation takes. -/
def newBlock (sys : MempoolSys) (pages : Option ℕ) : List ℕ :=
  if sys.st.count > 0 then [] else pages.toList

/-- One call. -/
def exec (sys : MempoolSys) : MempoolCall → Option MempoolSys
  | .alloc pages => (sys.st.mempoolAllocNolock pages).map fun r =>
      ⟨r.2, r.1.toList ++ sys.live, sys.newBlock pages ++ sys.blocks, sys.newBlock pages ++ sys.owned⟩
  | .free chunk =>
    let r := sys.st.mempoolFreeNolock chunk
    some ⟨r.1, sys.live.erase chunk, sys.blocks, r.2.elim sys.owned sys.owned.erase⟩
  | .write chunk next prev =>
    some { sys with st := { sys.st with links :=
      { next := Function.update sys.st.links.next chunk next
        prev := Function.update sys.st.links.prev chunk prev } } }

/-- `alloc_pages` fails or returns a new aligned block of the order of the pool, and stops the machine
for orders past `MAX_ORDER`. Only chunks in use are freed or written. -/
def Allowed (sys : MempoolSys) : MempoolCall → Prop
  | .alloc none => sys.st.order ≤ maxOrder
  | .alloc (some page) => sys.st.order ≤ maxOrder ∧ 2 ^ sys.st.order ∣ page ∧
      ∀ b ∈ sys.owned, page + 2 ^ sys.st.order ≤ b ∨ b + 2 ^ sys.st.order ≤ page
  | .free chunk => chunk ∈ sys.live
  | .write chunk _ _ => chunk ∈ sys.live

instance (sys : MempoolSys) : (call : MempoolCall) → Decidable (sys.Allowed call)
  | .alloc none => inferInstanceAs (Decidable (_ ≤ _))
  | .alloc (some _) => inferInstanceAs (Decidable (_ ∧ _ ∧ _))
  | .free _ => inferInstanceAs (Decidable (_ ∈ _))
  | .write _ _ _ => inferInstanceAs (Decidable (_ ∈ _))

/-- The pool before its first block. -/
structure Fresh (sys : MempoolSys) : Prop where
  sizeOk : sys.st.SizeOk
  count : sys.st.count = 0
  freelist : sys.st.freelist = none
  live : sys.live = []
  blocks : sys.blocks = []
  owned : sys.owned = []

/-- The pool after its first block. It takes no other one. -/
structure Running (sys : MempoolSys) (page : ℕ) (xs : List ℕ) : Prop where
  filled : sys.st.Filled sys.live page xs
  blocks : sys.blocks = [page]

/-- **The invariant.** -/
def Inv (sys : MempoolSys) : Prop := sys.Fresh ∨ ∃ page xs, sys.Running page xs

theorem fresh_mempoolInit {s st : MempoolState} {size order : ℕ}
    (h : s.mempoolInit size order = some st) : Fresh ⟨st, [], [], []⟩ := by
  rw [mempoolInit] at h
  split at h
  · exact absurd h (by simp)
  · next hlow =>
    split at h
    · exact absurd h (by simp)
    · next hhigh =>
      obtain rfl := Option.some.inj h
      exact ⟨⟨Nat.not_lt.mp hlow, Nat.not_lt.mp hhigh⟩, rfl, rfl, rfl, rfl, rfl⟩

theorem Running.count_pos (h : sys.Running page xs) : sys.st.count > 0 := by
  rw [h.filled.count]
  exact h.filled.sizeOk.maxCount_pos

/-- An allocation from a new block. -/
theorem Fresh.alloc (h : sys.Fresh) (hok : sys.Allowed (.alloc (some page))) :
    ∃ x s', sys.st.mempoolAllocNolock (some page) = some (some x, s') ∧
      x ∈ sys.st.chunks page ∧ ∃ xs, s'.Filled [x] page xs := by
  have hcount : ¬ sys.st.count > 0 := by
    rw [h.count]
    exact Nat.lt_irrefl 0
  have hfilled := filled_refill h.sizeOk hok.1 hok.2.1
  have hpos := h.sizeOk.maxCount_pos
  cases hxs : (sys.st.chunks page).reverse with
  | nil =>
    have hlen := length_chunks sys.st page
    rw [List.reverse_eq_nil_iff.mp hxs] at hlen
    exact absurd hlen.symm (Nat.ne_of_gt hpos)
  | cons x xs =>
    rw [hxs] at hfilled
    obtain ⟨s', hpop, hs'⟩ := hfilled.popChunk
    refine ⟨x, s', ?_, ?_, xs, hs'⟩
    · rw [mempoolAllocNolock, if_neg hcount]
      exact hpop
    · exact List.mem_reverse.mp (hxs ▸ List.mem_cons_self)

/-- **One call** keeps the invariant. -/
theorem Inv.exec (h : sys.Inv) (hok : sys.Allowed call) (hstep : sys.exec call = some sys') :
    sys'.Inv := by
  rcases h with h | ⟨page, xs, h⟩
  · cases call with
    | alloc pages =>
      have hcount : ¬ sys.st.count > 0 := by
        rw [h.count]
        exact Nat.lt_irrefl 0
      cases pages with
      | none =>
        have halloc : sys.st.mempoolAllocNolock none = some (none, sys.st) := if_neg hcount
        rw [MempoolSys.exec, halloc, newBlock, if_neg hcount] at hstep
        obtain rfl := Option.some.inj hstep
        exact Or.inl h
      | some page =>
        obtain ⟨x, s', halloc, -, xs, hfilled⟩ := h.alloc hok
        rw [MempoolSys.exec, halloc, newBlock, if_neg hcount, h.live, h.blocks, h.owned] at hstep
        obtain rfl := Option.some.inj hstep
        exact Or.inr ⟨page, xs, hfilled, rfl⟩
    | free chunk =>
      have hmem : chunk ∈ sys.live := hok
      rw [h.live] at hmem
      exact absurd hmem List.not_mem_nil
    | write chunk next prev =>
      have hmem : chunk ∈ sys.live := hok
      rw [h.live] at hmem
      exact absurd hmem List.not_mem_nil
  · refine Or.inr ⟨page, ?_⟩
    cases call with
    | alloc pages =>
      cases xs with
      | nil =>
        rw [MempoolSys.exec, mempoolAllocNolock_of_pos h.count_pos, h.filled.popChunk_nil] at hstep
        exact absurd hstep (by simp)
      | cons x xs =>
        obtain ⟨s', hpop, hs'⟩ := h.filled.popChunk
        rw [MempoolSys.exec, mempoolAllocNolock_of_pos h.count_pos, hpop, newBlock,
          if_pos h.count_pos] at hstep
        obtain rfl := Option.some.inj hstep
        exact ⟨xs, hs', h.blocks⟩
    | free chunk =>
      obtain rfl := Option.some.inj hstep
      exact ⟨chunk :: xs, (h.filled.mempoolFreeNolock hok).1, h.blocks⟩
    | write chunk next prev =>
      obtain rfl := Option.some.inj hstep
      refine ⟨xs, ⟨⟨h.filled.sizeOk.low, h.filled.sizeOk.high⟩, h.filled.order, h.filled.align,
        h.filled.count, h.filled.walk.congr fun y hy => ?_, h.filled.perm, h.filled.nFree⟩, h.blocks⟩
      refine Function.update_of_ne ?_ _ _
      rintro rfl
      exact (List.nodup_append.mp h.filled.nodup).2.2 y hy y hok rfl

theorem Fresh.inv_run (h : sys.Fresh) {ok : MempoolSys → MempoolCall → Prop}
    (hok : ∀ s c, ok s c → s.Allowed c) (hrun : Run MempoolSys.exec ok sys calls sys') : sys'.Inv :=
  hrun.invariant (P := Inv) (fun _ _ _ h hc hstep => h.exec (hok _ _ hc) hstep) (Or.inl h)

/-! ### What an allocation returns -/

/-- The null pointer if `alloc_pages` was called and failed, or else a chunk in a block of the pool
that overlaps no chunk in use. -/
def AllocOk (sys : MempoolSys) (pages : Option ℕ) : Option ℕ → Prop
  | none => sys.st.count = 0 ∧ pages = none
  | some chunk => (∃ page ∈ sys.newBlock pages ++ sys.blocks,
      sys.st.bytes chunk ⊆ sys.st.blockBytes page) ∧
      ∀ y ∈ sys.live, Disjoint (sys.st.bytes chunk) (sys.st.bytes y)

/-- A chunk of the block that the pool took is not in use. -/
def Room (sys : MempoolSys) : Prop := sys.blocks ≠ [] → sys.live.length < sys.st.maxCount

theorem Inv.alloc_iff (h : sys.Inv) (hok : sys.Allowed (.alloc pages)) :
    (∃ ret s', sys.st.mempoolAllocNolock pages = some (ret, s') ∧ sys.AllocOk pages ret) ↔
      sys.Room := by
  rcases h with h | ⟨page, xs, h⟩
  · have hroom : sys.Room := fun hne => absurd h.blocks hne
    have hcount : ¬ sys.st.count > 0 := by
      rw [h.count]
      exact Nat.lt_irrefl 0
    refine ⟨fun _ => hroom, fun _ => ?_⟩
    cases pages with
    | none => exact ⟨none, sys.st, if_neg hcount, h.count, rfl⟩
    | some page =>
      obtain ⟨x, s', halloc, hx, -⟩ := h.alloc hok
      refine ⟨some x, s', halloc, ⟨page, ?_, bytes_subset_block hx⟩, ?_⟩
      · rw [newBlock, if_neg hcount]
        exact List.mem_cons_self
      · rw [h.live]
        exact fun y hy => absurd hy List.not_mem_nil
  · have hlen := h.filled.length_eq
    have hne : sys.blocks ≠ [] := by
      rw [h.blocks]
      exact List.cons_ne_nil _ _
    rw [mempoolAllocNolock_of_pos h.count_pos]
    cases xs with
    | nil =>
      rw [h.filled.popChunk_nil]
      constructor
      · rintro ⟨ret, s', hpop, -⟩
        exact absurd hpop (by simp)
      · intro hroom
        have hlt := hroom hne
        rw [List.length_nil] at hlen
        omega
    | cons x xs =>
      obtain ⟨s', hpop, -⟩ := h.filled.popChunk
      refine ⟨fun _ _ => by rw [List.length_cons] at hlen; omega, fun _ => ⟨some x, s', hpop, ?_, ?_⟩⟩
      · refine ⟨page, List.mem_append_right _ ?_, bytes_subset_block (h.filled.mem_chunks List.mem_cons_self)⟩
        rw [h.blocks]
        exact List.mem_singleton_self page
      · intro y hy
        refine disjoint_bytes (h.filled.mem_chunks List.mem_cons_self)
          (h.filled.mem_chunks (List.mem_append_right _ hy)) ?_
        exact (List.nodup_append.mp h.filled.nodup).2.2 x List.mem_cons_self y hy

/-! ### Giving blocks back -/

/-- The chunk lies in a block that the pool did not give back. -/
def InOwned (sys : MempoolSys) (chunk : ℕ) : Prop :=
  ∃ page ∈ sys.owned, sys.st.bytes chunk ⊆ sys.st.blockBytes page

/-- The chunks in use and those on the list lie in blocks of the pool. -/
def Sound (sys : MempoolSys) : Prop :=
  (∀ x ∈ sys.live, sys.InOwned x) ∧
    ∃ xs, Walk sys.st.links.next sys.st.freelist xs ∧ ∀ x ∈ xs, sys.InOwned x

/-- The call does not free the last chunk in use. -/
def KeepsOne (sys : MempoolSys) : MempoolCall → Prop
  | .free chunk => sys.live ≠ [chunk]
  | _ => True

instance (sys : MempoolSys) : (call : MempoolCall) → Decidable (sys.KeepsOne call)
  | .free _ => inferInstanceAs (Decidable (_ ≠ _))
  | .alloc _ => .isTrue trivial
  | .write _ _ _ => .isTrue trivial

/-- The invariant while no block goes back. -/
def Keeping (sys : MempoolSys) : Prop := sys.Fresh ∨ ∃ page xs, sys.Running page xs ∧ sys.owned = [page]

theorem Running.sound (h : sys.Running page xs) (hown : sys.owned = [page]) : sys.Sound := by
  have hin : ∀ x ∈ xs ++ sys.live, sys.InOwned x := fun x hx =>
    ⟨page, hown ▸ List.mem_singleton_self page, bytes_subset_block (h.filled.mem_chunks hx)⟩
  exact ⟨fun x hx => hin x (List.mem_append_right _ hx), xs, h.filled.walk,
    fun x hx => hin x (List.mem_append_left _ hx)⟩

theorem Keeping.inv (h : sys.Keeping) : sys.Inv :=
  h.imp_right fun ⟨page, xs, h, _⟩ => ⟨page, xs, h⟩

theorem Keeping.sound (h : sys.Keeping) : sys.Sound := by
  rcases h with h | ⟨page, xs, h, hown⟩
  · refine ⟨fun x hx => ?_, [], h.freelist, fun x hx => absurd hx List.not_mem_nil⟩
    rw [h.live] at hx
    exact absurd hx List.not_mem_nil
  · exact h.sound hown

theorem Keeping.exec (h : sys.Keeping) (hok : sys.Allowed call) (hkeep : sys.KeepsOne call)
    (hstep : sys.exec call = some sys') : sys'.Keeping := by
  rcases h.inv.exec hok hstep with h' | ⟨page', xs', h'⟩
  · exact Or.inl h'
  refine Or.inr ⟨page', xs', h', ?_⟩
  -- the blocks that the pool owns are all that it took
  have hown : sys.owned = sys.blocks := by
    rcases h with h | ⟨page, xs, h, hown⟩
    · rw [h.owned, h.blocks]
    · rw [hown, h.blocks]
  have hown' : sys'.owned = sys'.blocks := by
    cases call with
    | alloc pages =>
      obtain ⟨r, -, rfl⟩ := Option.map_eq_some_iff.mp hstep
      exact congrArg _ hown
    | free chunk =>
      obtain rfl := Option.some.inj hstep
      rcases h with h | ⟨page, xs, h, -⟩
      · have hmem : chunk ∈ sys.live := hok
        rw [h.live] at hmem
        exact absurd hmem List.not_mem_nil
      · show (sys.st.mempoolFreeNolock chunk).2.elim sys.owned sys.owned.erase = sys.blocks
        rw [(h.filled.mempoolFreeNolock hok).2, if_neg hkeep]
        exact hown
    | write chunk next prev =>
      obtain rfl := Option.some.inj hstep
      exact hown
  rw [hown', h'.blocks]

/-- **Freeing the last chunk in use** gives the block back with its chunks on the list. -/
theorem Keeping.free_iff (h : sys.Keeping) (hmem : chunk ∈ sys.live) :
    (∃ sys', sys.exec (.free chunk) = some sys' ∧ sys'.Sound) ↔ sys.live ≠ [chunk] := by
  constructor
  · rintro ⟨sys', hstep, -, xs, hwalk, hin⟩ hlast
    rcases h with h | ⟨page, ys, h, hown⟩
    · rw [h.live] at hmem
      exact List.not_mem_nil hmem
    · obtain rfl := Option.some.inj hstep
      obtain ⟨hfilled, hret⟩ := h.filled.mempoolFreeNolock hmem
      rw [if_pos hlast] at hret
      obtain rfl := hwalk.unique hfilled.walk
      obtain ⟨b, hb, -⟩ := hin chunk List.mem_cons_self
      have hb : b ∈ (sys.st.mempoolFreeNolock chunk).2.elim sys.owned sys.owned.erase := hb
      rw [hret, hown] at hb
      have hb : b ∈ [page].erase page := hb
      rw [List.erase_cons_head] at hb
      exact List.not_mem_nil hb
  · intro hne
    have hok : sys.Allowed (.free chunk) := hmem
    have hkeep : sys.KeepsOne (.free chunk) := hne
    exact ⟨_, rfl, (h.exec hok hkeep rfl).sound⟩

end MempoolSys

/-- **What an allocation returns.** After any run from `mempool_init`, an allocation returns the null
pointer only if `alloc_pages` failed in that call, and otherwise a chunk of a block of the pool that
overlaps no chunk in use, if and only if the pool has no block yet or a chunk of its block is not in
use. In the other case it pops from the empty list. -/
theorem mempoolAlloc_returns_iff {s st : MempoolState} {size order : ℕ} {calls : List MempoolCall}
    {sys : MempoolSys} {pages : Option ℕ} (hinit : s.mempoolInit size order = some st)
    (hrun : Run MempoolSys.exec MempoolSys.Allowed ⟨st, [], [], []⟩ calls sys)
    (hok : sys.Allowed (.alloc pages)) :
    (∃ ret s', sys.st.mempoolAllocNolock pages = some (ret, s') ∧ sys.AllocOk pages ret) ↔
      sys.Room :=
  ((MempoolSys.fresh_mempoolInit hinit).inv_run (fun _ _ h => h) hrun).alloc_iff hok

/-- **Giving blocks back.** After any run from `mempool_init` in which no call frees the last chunk in
use, all chunks in use and on the list lie in blocks that the pool owns, and so does what the next
allocation returns; and freeing a chunk keeps this if and only if it is not the last one in use. -/
theorem mempool_sound {s st : MempoolState} {size order : ℕ} {calls : List MempoolCall}
    {sys : MempoolSys} (hinit : s.mempoolInit size order = some st)
    (hrun : Run MempoolSys.exec (fun sys c => sys.Allowed c ∧ sys.KeepsOne c) ⟨st, [], [], []⟩
      calls sys) :
    sys.Sound ∧
      (∀ pages sys', sys.Allowed (.alloc pages) → sys.exec (.alloc pages) = some sys' → sys'.Sound) ∧
      ∀ chunk ∈ sys.live,
        (∃ sys', sys.exec (.free chunk) = some sys' ∧ sys'.Sound) ↔ sys.live ≠ [chunk] := by
  have h : sys.Keeping := hrun.invariant (P := MempoolSys.Keeping)
    (fun _ _ _ h hc hstep => h.exec hc.1 hc.2 hstep) (Or.inl (MempoolSys.fresh_mempoolInit hinit))
  exact ⟨h.sound, fun pages sys' hok hstep => (h.exec hok trivial hstep).sound,
    fun chunk hmem => h.free_iff hmem⟩

/-! ### Two chunks to a page -/

/-- A new pool of half pages. -/
def halfPages : MempoolState where
  freelist := none
  count := 0
  size := 2048
  order := 0
  links := ⟨fun _ => none, fun _ => none⟩
  nFree _ := 0
  hhdmOffset := 0

/-- The third allocation pops from an empty list. -/
theorem not_mempoolAlloc_returns : ¬ ∀ (s st : MempoolState) (size order : ℕ)
    (calls : List MempoolCall) (sys : MempoolSys) (pages : Option ℕ),
    s.mempoolInit size order = some st →
      Run MempoolSys.exec MempoolSys.Allowed ⟨st, [], [], []⟩ calls sys →
      sys.Allowed (.alloc pages) →
      ∃ ret s', sys.st.mempoolAllocNolock pages = some (ret, s') ∧ sys.AllocOk pages ret := by
  intro h
  have hcheck : (Run.check MempoolSys.exec MempoolSys.Allowed ⟨halfPages, [], [], []⟩
      [.alloc (some 1), .alloc none]).map (fun sys => (sys.st.freelist, sys.st.count, sys.st.order)) =
        some (none, 2, 0) := by decide
  obtain ⟨sys, hrun, heq⟩ := Option.map_eq_some_iff.mp hcheck
  simp only [Prod.mk.injEq] at heq
  obtain ⟨hlist, hcount, horder⟩ := heq
  have hok : sys.Allowed (.alloc none) := by
    show sys.st.order ≤ maxOrder
    rw [horder]
    exact Nat.zero_le _
  obtain ⟨ret, s', halloc, -⟩ := h halfPages halfPages 2048 0 _ sys none rfl (Run.of_check hrun) hok
  have hpos : sys.st.count > 0 := by
    rw [hcount]
    decide
  rw [MempoolState.mempoolAllocNolock_of_pos hpos, MempoolState.popChunk, hlist] at halloc
  exact absurd halloc (by simp [listPopFront])

/-- After one allocation the second one returns a chunk. -/
theorem mempoolAlloc_returns_halfPages : ∃ sys,
    Run MempoolSys.exec MempoolSys.Allowed ⟨halfPages, [], [], []⟩ [.alloc (some 1)] sys ∧
      sys.blocks = [1] ∧
      ∃ ret s', sys.st.mempoolAllocNolock none = some (ret, s') ∧ sys.AllocOk none ret := by
  have hcheck : (Run.check MempoolSys.exec MempoolSys.Allowed ⟨halfPages, [], [], []⟩
      [.alloc (some 1)]).map (fun sys => (sys.blocks, sys.live, [sys.st.maxCount, sys.st.order])) =
        some ([1], [6144], [2, 0]) := by decide
  obtain ⟨sys, hrun, heq⟩ := Option.map_eq_some_iff.mp hcheck
  simp only [Prod.mk.injEq, List.cons.injEq, and_true] at heq
  obtain ⟨hblocks, hlive, hmax, horder⟩ := heq
  have hok : sys.Allowed (.alloc none) := by
    show sys.st.order ≤ maxOrder
    rw [horder]
    exact Nat.zero_le _
  refine ⟨sys, Run.of_check hrun, hblocks, ?_⟩
  have hinit : halfPages.mempoolInit 2048 0 = some halfPages := rfl
  refine (mempoolAlloc_returns_iff hinit (Run.of_check hrun) hok).mpr fun _ => ?_
  rw [hlive, hmax]
  decide

/-- Freeing the only chunk in use gives the page back, with two chunks on the list. -/
theorem not_mempool_sound : ¬ ∀ (s st : MempoolState) (size order : ℕ) (calls : List MempoolCall)
    (sys : MempoolSys), s.mempoolInit size order = some st →
      Run MempoolSys.exec MempoolSys.Allowed ⟨st, [], [], []⟩ calls sys → sys.Sound := by
  intro h
  have hcheck : (Run.check MempoolSys.exec MempoolSys.Allowed ⟨halfPages, [], [], []⟩
      [.alloc (some 1), .free 6144]).map (fun sys => (sys.st.freelist, sys.owned)) =
        some (some 6144, []) := by decide
  obtain ⟨sys, hrun, heq⟩ := Option.map_eq_some_iff.mp hcheck
  obtain ⟨hlist, hown⟩ := Prod.mk.inj heq
  obtain ⟨-, xs, hwalk, hin⟩ := h halfPages halfPages 2048 0 _ sys rfl (Run.of_check hrun)
  rw [hlist] at hwalk
  cases xs with
  | nil => exact absurd hwalk (by simp)
  | cons x xs =>
    obtain ⟨page, hpage, -⟩ := hin x List.mem_cons_self
    rw [hown] at hpage
    exact List.not_mem_nil hpage

/-- With two chunks in use, one can be freed. -/
theorem mempool_sound_halfPages : ∃ sys sys',
    Run MempoolSys.exec (fun sys c => sys.Allowed c ∧ sys.KeepsOne c) ⟨halfPages, [], [], []⟩
      [.alloc (some 1), .alloc none] sys ∧
      sys.live = [4096, 6144] ∧ sys.exec (.free 4096) = some sys' ∧ sys'.Sound := by
  have hcheck : (Run.check MempoolSys.exec (fun sys c => sys.Allowed c ∧ sys.KeepsOne c)
      ⟨halfPages, [], [], []⟩ [.alloc (some 1), .alloc none]).map MempoolSys.live =
        some [4096, 6144] := by decide
  obtain ⟨sys, hrun, hlive⟩ := Option.map_eq_some_iff.mp hcheck
  have hmem : 4096 ∈ sys.live := by
    rw [hlive]
    decide
  have hne : sys.live ≠ [4096] := by
    rw [hlive]
    decide
  have hinit : halfPages.mempoolInit 2048 0 = some halfPages := rfl
  obtain ⟨-, -, hfree⟩ := mempool_sound hinit (Run.of_check hrun)
  obtain ⟨sys', hstep, hsound⟩ := (hfree 4096 hmem).mpr hne
  exact ⟨sys, sys', Run.of_check hrun, hlive, hstep, hsound⟩

end GoofyOs
