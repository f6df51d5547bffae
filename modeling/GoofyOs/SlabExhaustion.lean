import GoofyOs.PageUnion

/-!
# Building a slab without memory

`kmem_cache_new_empty` asks for a block of pages and for a `struct slab`, and looks at both
pointers afterwards. Its error path gives back both of them, null or not, and then ends without a
value, which `kmem_cache_alloc_nolock` takes as the answer to whether there is a slab.

In `Slab` the use of that value is a call that does not return. Here it is a parameter. What
`mempool_zalloc` does on a null pointer before it returns one is not repeated from `Exhaustion`.

## Main definitions

* `SlabState.kmemCacheAllocRet`, `SlabState.kmalloc` — the allocation, given the missing value
* `SlabState.obtained` — what a failed creation holds
* `SlabState.FailsCleanly` — a null pointer, with nothing changed and each resource given back once

## Main results

* `kmalloc_of_failure` — what `kmalloc` does when a resource is missing
* `not_failsCleanly` — it is never what it should be
-/

namespace GoofyOs

namespace SlabState

variable (s : SlabState) (garbage : ℤ)

/-- `kmem_cache_alloc_nolock`, where a function that ends without a value has the value
`garbage`. -/
def kmemCacheAllocRet (c : ℕ) (newPage newSlab : Option ℕ) : Option (Option ℕ × SlabState) :=
  if (s.caches c).count .part ≠ 0 then
    (s.kmemCacheAllocPartial c).map fun r => (some r.1, r.2)
  else if (s.caches c).count .empty ≠ 0 then
    (s.kmemCacheAllocEmpty c).map fun r => (some r.1, r.2)
  else do
    let (ret, s) ← s.kmemCacheNewEmpty c newPage newSlab
    if ret.getD garbage ≠ 0 then pure (none, s)
    else (s.kmemCacheAllocEmpty c).map fun r => (some r.1, r.2)

/-- `kmalloc`, with what `alloc_pages` and `mempool_zalloc` return if it asks them. -/
def kmalloc (size : ℕ) (newPage newSlab : Option ℕ) : Option (Option ℕ × SlabState) :=
  if size > 8192 then some (none, s)
  else s.kmemCacheAllocRet garbage (kmallocIdx size) newPage newSlab

/-- What was obtained, as it has to be given back. -/
def obtained (order : ℕ) (newPage newSlab : Option ℕ) : List SlabRelease :=
  (newPage.map fun page => .freePages (some page) order).toList ++
    (newSlab.map fun slab => .mempoolFree (some slab)).toList

/-- `kmalloc` returns null, the lists and counters of the caches are as they were, and each
resource is given back once, and nothing else. -/
def FailsCleanly (size : ℕ) (newPage newSlab : Option ℕ) : Prop :=
  ∃ s', s.kmalloc garbage size newPage newSlab = some (none, s') ∧
    s'.caches = s.caches ∧ s'.slabList = s.slabList ∧
    ∃ given, s'.released = s.released ++ given ∧
      given.Perm (obtained (s.caches (kmallocIdx size)).order newPage newSlab)

variable {s garbage} {c size order : ℕ} {newPage newSlab : Option ℕ}

/-- Where `Slab` has a result, it is the one for every value. -/
theorem kmemCacheAllocRet_of_alloc {r : Option ℕ × SlabState}
    (hr : s.kmemCacheAllocNolock c newPage newSlab = some r) :
    s.kmemCacheAllocRet garbage c newPage newSlab = some r := by
  rw [kmemCacheAllocNolock] at hr
  rw [kmemCacheAllocRet]
  split
  · next hpart => rwa [if_pos hpart] at hr
  · next hpart =>
    rw [if_neg hpart] at hr
    split
    · next hempty => rwa [if_pos hempty] at hr
    · next hempty =>
      rw [if_neg hempty] at hr
      obtain ⟨⟨ret, s₁⟩, hx, hr⟩ := Option.bind_eq_some_iff.mp hr
      obtain ⟨n, rfl, hr⟩ := Option.bind_eq_some_iff.mp hr
      rw [hx]
      exact hr

/-- The error path. -/
theorem kmemCacheNewEmpty_of_failure (hfail : newPage = none ∨ newSlab = none) :
    s.kmemCacheNewEmpty c newPage newSlab =
      some (none, { s with released := s.released ++
        [.freePages newPage (s.caches c).order, .mempoolFree newSlab] }) := by
  rcases hfail with rfl | rfl
  · rfl
  · cases newPage <;> rfl

/-- **`kmalloc`** when a resource is missing: it returns null or goes on without a slab. -/
theorem kmalloc_of_failure (hsize : size ≤ 8192) (hneeds : s.NeedsSlab (kmallocIdx size))
    (hfail : newPage = none ∨ newSlab = none) :
    s.kmalloc garbage size newPage newSlab =
      let s' := { s with released := s.released ++
        [.freePages newPage (s.caches (kmallocIdx size)).order, .mempoolFree newSlab] }
      if garbage ≠ 0 then some (none, s')
      else (s'.kmemCacheAllocEmpty (kmallocIdx size)).map fun r => (some r.1, r.2) := by
  rw [kmalloc, if_neg (Nat.not_lt.mpr hsize), kmemCacheAllocRet, if_neg (not_not.mpr hneeds.1),
    if_neg (not_not.mpr hneeds.2), kmemCacheNewEmpty_of_failure hfail]
  rfl

/-- Only one of the two pointers can be given back. -/
theorem length_obtained (hfail : newPage = none ∨ newSlab = none) :
    (obtained order newPage newSlab).length ≤ 1 := by
  rcases hfail with rfl | rfl
  · cases newSlab <;> simp [obtained]
  · cases newPage <;> simp [obtained]

/-- **A failed slab creation** is never clean, whichever resource is missing and whatever value the
caller finds: it gives back two pointers, and one of them is null. -/
theorem not_failsCleanly (s : SlabState) (garbage : ℤ) (size : ℕ) (newPage newSlab : Option ℕ)
    (hsize : size ≤ 8192) (hneeds : s.NeedsSlab (kmallocIdx size))
    (hfail : newPage = none ∨ newSlab = none) :
    ¬ s.FailsCleanly garbage size newPage newSlab := by
  rintro ⟨s', hret, -, -, given, hgiven, hperm⟩
  rw [kmalloc_of_failure hsize hneeds hfail] at hret
  by_cases hg : garbage ≠ 0
  · simp only [if_pos hg, Option.some.injEq, Prod.mk.injEq, true_and] at hret
    subst hret
    have hlen := hperm.length_eq ▸ length_obtained hfail
    rw [← List.append_cancel_left hgiven] at hlen
    simp at hlen
  · -- the value is zero: what is returned is a chunk
    simp only [if_neg hg] at hret
    obtain ⟨r, -, hr⟩ := Option.map_eq_some_iff.mp hret
    cases congrArg Prod.fst hr

/-- Caches without slabs. -/
def noSlabState : SlabState where
  caches _ := { size := 128, order := 0, slabs := fun _ => none, count := fun _ => 0 }
  slab _ := ⟨none, none, 0⟩
  slabList := ⟨fun _ => none, fun _ => none⟩
  pageSlab _ := none
  chunkNext _ := none
  hhdmOffset := 0
  released := []

theorem not_failsCleanly_page : ¬ noSlabState.FailsCleanly 1 100 (some 5) none :=
  not_failsCleanly noSlabState 1 100 (some 5) none (by decide) ⟨rfl, rfl⟩ (.inr rfl)

/-- `kmalloc(100)` with a page and without a `struct slab`. -/
theorem not_slab_failure_clean :
    ¬ ∀ (s : SlabState) (garbage : ℤ) (size : ℕ) (newPage newSlab : Option ℕ), size ≤ 8192 →
      s.NeedsSlab (kmallocIdx size) → newPage = none ∨ newSlab = none →
      s.FailsCleanly garbage size newPage newSlab := by
  intro hall
  obtain ⟨s', hret, -, -, given, hgiven, hperm⟩ :=
    hall noSlabState 1 100 (some 5) none (by decide) ⟨rfl, rfl⟩ (.inr rfl)
  cases hret
  cases hgiven
  exact absurd hperm.length_eq (by decide)

end SlabState

end GoofyOs
