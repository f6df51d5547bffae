import GoofyOs.Mempool
import GoofyOs.Sparse

/-!
# Running out of pages

`alloc_pages_nolock` returns a null pointer when no listed block is large enough. Here is what the
functions on top of it make of that. `alloc_pages` clears the block that it got, `pgalloc` and
`pgzalloc` take its address, and none of them looks at the pointer first: `page_to_virt` of a null
pointer is an address like any other. `mempool_alloc` does look, but its request was for cleared
pages.

The word `page->mempool` of new pages is left out, as in `Mempool`.

## Main definitions

* `pageToVirt` — `page_to_virt`, by addresses
* `PageMm`, `PageCall`, `PageMm.exec` — the buddy allocator with a pool, and the calls
* `PageMm.Exhausted` — no block is large enough for a call

## Main results

* `exhaustion_reported_iff` — when a call returns a null pointer and leaves everything as it was
* `not_exhaustion_reported` — `pgzalloc`
-/

namespace GoofyOs

/-- A `struct page *`, which is null or points to the struct of a page. -/
def pagePtr : Option ℕ → BitVec 64
  | none => 0
  | some pfn => pfnToPage pfn

/-- `page_to_pfn`: the difference of two pointers, in structs of 64 bytes. -/
def pageToPfn (page : BitVec 64) : BitVec 64 := (page - sparsemapArray).sdiv 64

/-- `page_to_virt`, with the shift of `pfn_to_virt`. -/
def pageToVirt (hhdmOffset : BitVec 64) (page : Option ℕ) : BitVec 64 :=
  pageToPfn (pagePtr page) <<< 12 + hhdmOffset

/-- The address of the page of a null pointer. -/
theorem pageToVirt_none (hhdmOffset : BitVec 64) :
    pageToVirt hhdmOffset none = 0x10000000000000 + hhdmOffset := by
  rw [pageToVirt, show pageToPfn (pagePtr none) <<< 12 = 0x10000000000000 by decide]

/-- The address of a chunk, or null. -/
def chunkPtr (chunk : Option ℕ) : BitVec 64 := (chunk.map (BitVec.ofNat 64)).getD 0

/-- The buddy allocator and a pool. -/
structure PageMm where
  buddy : BuddyState
  pool : MempoolState
  /-- the `memset` calls of `mempool_zalloc`, with the address and the length -/
  memsets : List (BitVec 64 × ℕ)

/-- A call for memory. -/
inductive PageCall
  | allocPages (order : ℕ) (flags : BitVec 32)
  | pgalloc
  | pgzalloc
  | mempoolAlloc
  | mempoolZalloc

namespace PageMm

variable (m : PageMm)

/-- `hhdm_offset`. -/
def hhdmOffset : BitVec 64 := BitVec.ofNat 64 m.pool.hhdmOffset

/-- `alloc_pages`: a `struct page *`. -/
def allocPages (order : ℕ) (flags : BitVec 32) : Option (BitVec 64 × PageMm) :=
  (m.buddy.allocPages order flags).map fun r => (pagePtr r.1, { m with buddy := r.2 })

/-- `pgalloc` and `pgzalloc` differ in the flags. -/
def pgallocFlags (flags : BitVec 32) : Option (BitVec 64 × PageMm) :=
  (m.buddy.allocPages 0 flags).map fun r =>
    (pageToVirt m.hhdmOffset r.1, { m with buddy := r.2 })

/-- `pgalloc`. -/
def pgalloc : Option (BitVec 64 × PageMm) := m.pgallocFlags 0

/-- `pgzalloc`. -/
def pgzalloc : Option (BitVec 64 × PageMm) := m.pgallocFlags buddyZero

/-- `mempool_alloc`. -/
def mempoolAlloc : Option (BitVec 64 × PageMm) :=
  if m.pool.count > 0 then
    (m.pool.mempoolAllocNolock none).map fun r => (chunkPtr r.1, { m with pool := r.2 })
  else do
    let (pages, buddy) ← m.buddy.allocPages m.pool.order buddyZero
    let (chunk, pool) ← m.pool.mempoolAllocNolock pages
    pure (chunkPtr chunk, { m with buddy := buddy, pool := pool })

/-- `mempool_zalloc`. -/
def mempoolZalloc : Option (BitVec 64 × PageMm) :=
  m.mempoolAlloc.map fun r =>
    (r.1, { r.2 with memsets := r.2.memsets ++ [(r.1, r.2.pool.size)] })

/-- One call. -/
def exec : PageCall → Option (BitVec 64 × PageMm)
  | .allocPages order flags => m.allocPages order flags
  | .pgalloc => m.pgalloc
  | .pgzalloc => m.pgzalloc
  | .mempoolAlloc => m.mempoolAlloc
  | .mempoolZalloc => m.mempoolZalloc

/-- No listed block has the order or more. -/
def NoBlock (order : ℕ) : Prop :=
  ∀ j, order ≤ j → j ≤ maxOrder →
    (m.buddy.buddyLists j).head = none ∧ (m.buddy.buddyLists j).count = 0

/-- There is nothing for the call. The flags are valid, and a pool that is asked has no free
chunk. -/
def Exhausted : PageCall → Prop
  | .allocPages order flags => flags &&& ~~~buddyZero = 0 ∧ m.NoBlock order
  | .pgalloc | .pgzalloc => m.NoBlock 0
  | .mempoolAlloc | .mempoolZalloc => m.pool.freelist = none ∧ m.NoBlock m.pool.order

/-- The calls that notice: `alloc_pages` without `BUDDY_ZERO`, up to the order at which it stops the
machine. For `pgalloc` the direct map would have to start where no canonical address is. -/
def Notices : PageCall → Prop
  | .allocPages order flags => order ≤ maxOrder ∧ flags = 0
  | .pgalloc => m.hhdmOffset = 0xfff0000000000000
  | .pgzalloc | .mempoolAlloc | .mempoolZalloc => False

variable {m} {order : ℕ} {flags : BitVec 32}

/-! ### What `alloc_pages` does -/

theorem allocPagesAux_of_noBlock {s : BuddyState} {k n : ℕ}
    (h : ∀ j, k ≤ j → j ≤ maxOrder → (s.buddyLists j).count = 0) (hk : k ≤ maxOrder)
    (hn : maxOrder < k + n) : BuddyState.allocPagesAux n s k = some (none, s) := by
  induction n generalizing k with
  | zero => omega
  | succ n ih =>
    rw [BuddyState.allocPagesAux, if_neg (Nat.not_lt.mpr hk),
      if_neg (by rw [h k le_rfl hk]; decide)]
    rcases Nat.eq_or_lt_of_le hk with rfl | hlt
    · rw [if_pos rfl]
    · rw [if_neg hlt.ne, ih (fun j hj => h j (by omega)) hlt (by omega)]

/-- **`alloc_pages`** with no block. The `memset` is of a null pointer. -/
theorem buddy_allocPages (h : m.NoBlock order) (ho : order ≤ maxOrder)
    (hf : flags &&& ~~~buddyZero = 0) : m.buddy.allocPages order flags =
      some (none, if flags &&& buddyZero ≠ 0 then
          { m.buddy with memsets := m.buddy.memsets ++ [(none, pageSize <<< order)] }
        else m.buddy) := by
  have hnone : m.buddy.allocPagesNolock order = some (none, m.buddy) :=
    allocPagesAux_of_noBlock (fun j hj hj' => (h j hj hj').2) ho (by omega)
  rw [BuddyState.allocPages, if_neg (not_not.mpr hf), hnone]
  by_cases hz : flags &&& buddyZero ≠ 0
  · simp only [Option.map_some, if_pos hz]
  · simp only [Option.map_some, if_neg hz]

theorem allocPages_of_gt {s : BuddyState} (ho : maxOrder < order)
    (hf : flags &&& ~~~buddyZero = 0) : s.allocPages order flags = none := by
  rw [BuddyState.allocPages, if_neg (not_not.mpr hf), BuddyState.allocPagesNolock,
    BuddyState.allocPagesAux, if_pos ho]
  rfl

theorem allocPages_zero_eq (h : m.NoBlock order) (ho : order ≤ maxOrder) :
    m.allocPages order 0 = some (0, m) := by
  have hb := buddy_allocPages h ho (show 0 &&& ~~~buddyZero = 0 by decide)
  rw [if_neg (by decide)] at hb
  rw [allocPages, hb]
  rfl

/-- `BUDDY_ZERO` is noticed. -/
theorem memsets_of_buddyZero {r : Option ℕ × BuddyState} (h : m.NoBlock order)
    (hr : m.buddy.allocPages order buddyZero = some r) : r.1 = none ∧ r.2 ≠ m.buddy := by
  rcases Nat.lt_or_ge maxOrder order with ho | ho
  · rw [allocPages_of_gt ho (by decide)] at hr
    cases hr
  · rw [buddy_allocPages h ho (by decide), if_pos (by decide)] at hr
    cases hr
    refine ⟨rfl, fun heq => ?_⟩
    have hlog := congrArg BuddyState.memsets heq
    simp at hlog

theorem flags_cases (hf : flags &&& ~~~buddyZero = 0) : flags = 0 ∨ flags = buddyZero := by
  have hhigh : ∀ i, 0 < i → i < 32 → flags.getLsbD i = false := by
    intro i hpos hlt
    have hmask : (~~~buddyZero).getLsbD i = true := by
      rw [BitVec.getLsbD_not, show buddyZero = 1#32 from rfl, BitVec.getLsbD_one]
      simp [hlt, hpos.ne']
    have hbit := congrArg (fun x : BitVec 32 => x.getLsbD i) hf
    simp only [BitVec.getLsbD_and, hmask, Bool.and_true] at hbit
    exact hbit.trans BitVec.getLsbD_zero
  cases hzero : flags.getLsbD 0 with
  | false =>
    refine .inl (BitVec.eq_of_getLsbD_eq fun i hlt => ?_)
    rcases Nat.eq_zero_or_pos i with rfl | hpos
    · simpa using hzero
    · simpa using hhigh i hpos hlt
  | true =>
    refine .inr (BitVec.eq_of_getLsbD_eq fun i hlt => ?_)
    rcases Nat.eq_zero_or_pos i with rfl | hpos
    · simpa [buddyZero] using hzero
    · simpa [buddyZero, BitVec.getLsbD_one, hpos.ne'] using hhigh i hpos hlt

/-! ### What the callers do -/

theorem memsets_mempoolAlloc {r : BitVec 64 × PageMm} (hr : m.mempoolAlloc = some r) :
    r.2.memsets = m.memsets := by
  rw [mempoolAlloc] at hr
  split at hr
  · obtain ⟨x, -, rfl⟩ := Option.map_eq_some_iff.mp hr
    rfl
  · obtain ⟨x, -, hr⟩ := Option.bind_eq_some_iff.mp hr
    obtain ⟨y, -, hr⟩ := Option.bind_eq_some_iff.mp hr
    cases hr
    rfl

/-- A pool reads from its empty list or asks for cleared pages. -/
theorem buddy_mempoolAlloc {r : BitVec 64 × PageMm} (hpool : m.pool.freelist = none)
    (h : m.NoBlock m.pool.order) (hr : m.mempoolAlloc = some r) : r.2.buddy ≠ m.buddy := by
  rw [mempoolAlloc] at hr
  split at hr
  · next hcount =>
    obtain ⟨x, hx, -⟩ := Option.map_eq_some_iff.mp hr
    rw [MempoolState.mempoolAllocNolock, if_pos hcount, MempoolState.popChunk, hpool] at hx
    cases hx
  · obtain ⟨x, hx, hr⟩ := Option.bind_eq_some_iff.mp hr
    obtain ⟨y, -, hr⟩ := Option.bind_eq_some_iff.mp hr
    cases hr
    exact (memsets_of_buddyZero h hx).2

theorem allocPages_notices (hf : flags &&& ~~~buddyZero = 0) (h : m.NoBlock order) :
    m.allocPages order flags = some (0, m) ↔ order ≤ maxOrder ∧ flags = 0 := by
  constructor
  · intro hexec
    obtain ⟨r, hr, hm⟩ := Option.map_eq_some_iff.mp hexec
    refine ⟨?_, (flags_cases hf).resolve_right ?_⟩
    · by_contra ho
      rw [allocPages_of_gt (Nat.not_le.mp ho) hf] at hr
      cases hr
    · rintro rfl
      exact (memsets_of_buddyZero h hr).2 (congrArg (fun x => x.2.buddy) hm)
  · rintro ⟨ho, rfl⟩
    exact allocPages_zero_eq h ho

theorem pgalloc_notices (h : m.NoBlock 0) :
    m.pgalloc = some (0, m) ↔ m.hhdmOffset = 0xfff0000000000000 := by
  have hb := buddy_allocPages h (Nat.zero_le _) (show 0 &&& ~~~buddyZero = 0 by decide)
  rw [if_neg (by decide)] at hb
  rw [pgalloc, pgallocFlags, hb, Option.map_some, pageToVirt_none, Option.some_inj, Prod.mk.injEq,
    and_iff_left rfl]
  constructor
  · intro hzero
    bv_omega
  · intro hoff
    rw [hoff]
    decide

theorem pgzalloc_ne (h : m.NoBlock 0) : m.pgzalloc ≠ some (0, m) := by
  intro hexec
  obtain ⟨r, hr, hm⟩ := Option.map_eq_some_iff.mp hexec
  exact (memsets_of_buddyZero h hr).2 (congrArg (fun x => x.2.buddy) hm)

/-- **Exhaustion** is reported by `alloc_pages` without `BUDDY_ZERO`. The other calls clear what
they did not get, or return the address of a page that does not exist. -/
theorem exhaustion_reported_iff (m : PageMm) (call : PageCall) (h : m.Exhausted call) :
    m.exec call = some (0, m) ↔ m.Notices call := by
  cases call with
  | allocPages order flags => exact allocPages_notices h.1 h.2
  | pgalloc => exact pgalloc_notices h
  | pgzalloc => exact iff_of_false (pgzalloc_ne h) id
  | mempoolAlloc =>
    exact iff_of_false (fun hexec => buddy_mempoolAlloc h.1 h.2 hexec rfl) id
  | mempoolZalloc =>
    refine iff_of_false (fun hexec => ?_) id
    obtain ⟨r, hr, hm⟩ := Option.map_eq_some_iff.mp hexec
    have hlog := memsets_mempoolAlloc hr
    rw [← congrArg (fun x => x.2.memsets) hm] at hlog
    simp at hlog

/-- A machine with no free page, and a pool with no block. -/
def noPages : PageMm where
  buddy := zeroedBuddy
  pool :=
    { freelist := none
      count := 0
      size := 64
      order := 0
      links := ⟨fun _ => none, fun _ => none⟩
      nFree := fun _ => 0
      hhdmOffset := 0xffff800000000000 }
  memsets := []

theorem noPages_noBlock (order : ℕ) : noPages.NoBlock order := fun _ _ _ => ⟨rfl, rfl⟩

theorem exhaustion_reported_order :
    noPages.exec (.allocPages 3 0) = some (0, noPages) ↔ 3 ≤ maxOrder ∧ (0 : BitVec 32) = 0 :=
  exhaustion_reported_iff noPages (.allocPages 3 0) ⟨by decide, noPages_noBlock 3⟩

/-- `pgzalloc` clears 4096 bytes at the address of a page that does not exist, and returns it. -/
theorem not_exhaustion_reported :
    ¬ ∀ (m : PageMm) (call : PageCall), m.Exhausted call → m.exec call = some (0, m) := by
  intro hall
  exact pgzalloc_ne (noPages_noBlock 0) (hall noPages .pgzalloc (noPages_noBlock 0))

end PageMm

end GoofyOs
