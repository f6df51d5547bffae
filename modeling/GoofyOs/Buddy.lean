import GoofyOs.CInt
import GoofyOs.ForMathlib.DyadicBlock
import GoofyOs.ListHead
import Mathlib.Data.BitVec

/-!
# The buddy allocator of `mm/buddy.c`

A page is named by its frame number: `page_to_pfn` and `pfn_to_page` are the identity. The
fields of `struct page` that the allocator uses are one map each, and `buddy_lists` is a map from
orders to list heads and counts; entries past `MAX_ORDER` do not exist in the source and stay
empty.

`unsigned int` arithmetic is kept where it matters: the counts wrap, and `free_pages_nolock`
computes the buddy's frame number in 32 bits. The outcome `none` is a call that does not return: a
read through a null list head, or `hcf`. The lock `kmem.lock` is held by one caller at a time and
is left out.

## Main definitions

* `BuddyState` — the page structs, the free lists and the zones
* `freePagesNolock`, `allocPagesNolock`, `freePages`, `allocPages` — the allocator
* `MergeTest` — the four tests before a merge, as one condition
-/

namespace GoofyOs

/-- `MAX_ORDER`. -/
def maxOrder : ℕ := 15

/-- `PAGE_SIZE`. -/
def pageSize : ℕ := 4096

/-- `PAGE_FLAG_FREE`. -/
def pageFlagFree : BitVec 64 := 1

/-- `BUDDY_ZERO`, the only bit of `BUDDY_FLAGMASK`. -/
def buddyZero : BitVec 32 := 1

/-- `GET_BUDDY`. -/
def getBuddy (pfn order : ℕ) : ℕ := pfn ^^^ (1 <<< order)

/-- `struct buddy_freelist`. -/
structure BuddyFreelist where
  head : Option ℕ
  count : ℕ

/-- `struct buddy_zone`. -/
structure BuddyZone where
  pfnBase : ℕ
  size : ℕ

/-- The memory the buddy allocator works on. -/
structure BuddyState where
  /-- `page->buddy_list` -/
  links : Links ℕ
  /-- `page->flags` -/
  flags : ℕ → BitVec 64
  /-- `page->buddy_order` -/
  buddyOrder : ℕ → ℕ
  buddyLists : ℕ → BuddyFreelist
  buddyZones : List BuddyZone
  /-- the `memset` calls on page contents, with the page and the length -/
  memsets : List (Option ℕ × ℕ)

namespace BuddyState

variable (s : BuddyState)

/-- The heads of the free lists, by order. -/
def heads (k : ℕ) : Option ℕ := (s.buddyLists k).head

/-- `valid_buddy_pfn`. -/
def validBuddyPfn (pfn : ℕ) : Bool :=
  s.buddyZones.any fun z => z.pfnBase ≤ pfn && pfn < z.pfnBase + z.size

/-- `page->flags & PAGE_FLAG_FREE`. -/
def IsFree (page : ℕ) : Prop := s.flags page &&& pageFlagFree ≠ 0

instance (page : ℕ) : Decidable (s.IsFree page) := inferInstanceAs (Decidable (_ ≠ _))

/-- `page->flags &= ~PAGE_FLAG_FREE`. -/
def clearFree (page : ℕ) : BuddyState :=
  { s with flags := Function.update s.flags page (s.flags page &&& ~~~pageFlagFree) }

/-- `remove_from_freelist`. -/
def removeFromFreelist (page : ℕ) : BuddyState :=
  let order := s.buddyOrder page
  let r := listRemoveNode s.links (s.buddyLists order).head page
  let s := { s with
    links := r.1
    buddyLists := Function.update s.buddyLists order
      ⟨r.2, asUint ((s.buddyLists order).count + (2 ^ 32 - 1))⟩ }
  s.clearFree page

/-- The tail of `free_pages_nolock` at the label `direct_free`. -/
def directFree (page order : ℕ) : BuddyState :=
  let r := listPushFront s.links (s.buddyLists order).head page
  { s with
    links := r.1
    flags := Function.update s.flags page (s.flags page ||| pageFlagFree)
    buddyOrder := Function.update s.buddyOrder page order
    buddyLists := Function.update s.buddyLists order
      ⟨r.2, asUint ((s.buddyLists order).count + 1)⟩ }

/-- `free_pages_nolock`, with a bound on the depth of the recursion. `buddy_pfn` is an
`unsigned int` in the source. -/
def freePagesAux : ℕ → BuddyState → ℕ → ℕ → BuddyState
  | 0, s, _, _ => s
  | n + 1, s, pfn, order =>
    let buddyPfn := asUint (getBuddy pfn order)
    if s.validBuddyPfn buddyPfn = false then s.directFree pfn order
    else if ¬ s.IsFree buddyPfn then s.directFree pfn order
    else if s.buddyOrder buddyPfn ≠ order then s.directFree pfn order
    else if s.buddyOrder buddyPfn = maxOrder then s.directFree pfn order
    else
      let s := s.removeFromFreelist buddyPfn
      if buddyPfn > pfn then freePagesAux n s pfn (order + 1)
      else freePagesAux n s buddyPfn (order + 1)

/-- `free_pages_nolock`. The order grows with every merge and a merge of order `MAX_ORDER` is
refused, so `N_ORDERS` levels are enough: see `freePagesAux_eq`. -/
def freePagesNolock (page order : ℕ) : BuddyState := freePagesAux (maxOrder + 1) s page order

/-- `free_pages`. -/
def freePages (page order : ℕ) : BuddyState := s.freePagesNolock page order

/-- `alloc_pages_nolock`, with a bound on the depth of the recursion. The source never uses its
`flags` argument. -/
def allocPagesAux : ℕ → BuddyState → ℕ → Option (Option ℕ × BuddyState)
  | 0, _, _ => none
  | n + 1, s, order =>
    if order > maxOrder then none
    else if (s.buddyLists order).count > 0 then
      (listPopFront s.links (s.buddyLists order).head).map fun r =>
        (some r.1, { s with
          buddyLists := Function.update s.buddyLists order
            ⟨r.2, asUint ((s.buddyLists order).count + (2 ^ 32 - 1))⟩ })
    else if order = maxOrder then some (none, s)
    else
      match allocPagesAux n s (order + 1) with
      | none => none
      | some (none, s) => some (none, s)
      | some (some ret, s) =>
        some (some ret, (s.freePagesNolock (getBuddy ret order) order).clearFree ret)

/-- `alloc_pages_nolock`. -/
def allocPagesNolock (order : ℕ) : Option (Option ℕ × BuddyState) :=
  allocPagesAux (maxOrder + 1) s order

/-- `alloc_pages`. The lock is taken after the check of the flags. -/
def allocPages (order : ℕ) (flags : BitVec 32) : Option (Option ℕ × BuddyState) :=
  if flags &&& ~~~buddyZero ≠ 0 then some (none, s)
  else
    (s.allocPagesNolock order).map fun r =>
      if flags &&& buddyZero ≠ 0 then
        (r.1, { r.2 with memsets := r.2.memsets ++ [(r.1, pageSize <<< order)] })
      else r

/-! ### The merge test -/

/-- The page at frame `b` passes the four tests of `free_pages_nolock` for a merge at `order`. -/
def MergeTest (b order : ℕ) : Prop :=
  s.validBuddyPfn b = true ∧ s.IsFree b ∧ s.buddyOrder b = order ∧ order ≠ maxOrder

variable {s} {n m pfn order page p q : ℕ}

theorem freePagesAux_of_merge (h : s.MergeTest (asUint (getBuddy pfn order)) order) :
    freePagesAux (n + 1) s pfn order =
      freePagesAux n (s.removeFromFreelist (asUint (getBuddy pfn order)))
        (min pfn (asUint (getBuddy pfn order))) (order + 1) := by
  obtain ⟨hv, hf, ho, hm⟩ := h
  rw [freePagesAux, if_neg (by simp [hv]), if_neg (not_not.mpr hf), if_neg (not_not.mpr ho),
    if_neg (by rwa [ho])]
  split
  · next h => rw [min_eq_left (le_of_lt h)]
  · next h => rw [min_eq_right (le_of_not_gt h)]

theorem freePagesAux_of_not_merge (h : ¬ s.MergeTest (asUint (getBuddy pfn order)) order) :
    freePagesAux (n + 1) s pfn order = s.directFree pfn order := by
  rw [freePagesAux]
  split_ifs with hv hf ho hm <;> try rfl
  all_goals exact absurd ⟨by simpa using hv, by simpa using hf, by simpa using ho, by simp_all⟩ h

/-- Depth `N_ORDERS` is never used up: any two bounds that reach past `MAX_ORDER` give the same
result. -/
theorem freePagesAux_eq (ho : order ≤ maxOrder) (hn : maxOrder < order + n)
    (hm : maxOrder < order + m) : freePagesAux n s pfn order = freePagesAux m s pfn order := by
  induction n generalizing s pfn order m with
  | zero => omega
  | succ n ih =>
    obtain ⟨m, rfl⟩ : ∃ m', m = m' + 1 := ⟨m - 1, by omega⟩
    by_cases h : s.MergeTest (asUint (getBuddy pfn order)) order
    · rw [freePagesAux_of_merge h, freePagesAux_of_merge h]
      have := h.2.2.2
      exact ih (by omega) (by omega) (by omega)
    · rw [freePagesAux_of_not_merge h, freePagesAux_of_not_merge h]

theorem getBuddy_eq (pfn order : ℕ) : getBuddy pfn order = Dyadic.buddy pfn order := by
  rw [getBuddy, Dyadic.buddy, Nat.one_shiftLeft]

/-! ### The flag word -/

theorem or_pageFlagFree_ne (f : BitVec 64) : (f ||| pageFlagFree) &&& pageFlagFree ≠ 0 := by
  intro h
  have := congrArg (fun x : BitVec 64 => x.getLsbD 0) h
  simp [pageFlagFree] at this

theorem clear_pageFlagFree (f : BitVec 64) : f &&& ~~~pageFlagFree &&& pageFlagFree = 0 := by
  rw [BitVec.and_assoc, show ~~~pageFlagFree &&& pageFlagFree = 0 by decide]
  simp

theorem isFree_clearFree : (s.clearFree page).IsFree p ↔ p ≠ page ∧ s.IsFree p := by
  rcases eq_or_ne p page with rfl | hp
  · simp [IsFree, clearFree, clear_pageFlagFree]
  · simp [IsFree, clearFree, hp]

theorem isFree_directFree : (s.directFree page order).IsFree p ↔ p = page ∨ s.IsFree p := by
  rcases eq_or_ne p page with rfl | hp
  · simpa [IsFree, directFree] using or_pageFlagFree_ne (s.flags p)
  · simp [IsFree, directFree, hp]

theorem isFree_removeFromFreelist :
    (s.removeFromFreelist page).IsFree p ↔ p ≠ page ∧ s.IsFree p := isFree_clearFree

end BuddyState

end GoofyOs
