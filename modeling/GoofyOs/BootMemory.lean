import GoofyOs.BuddyInitLoss
import GoofyOs.PageUnion

/-!
# The memory that the boot leaves

`buddy_init` frees single pages and skips the page after each one it frees. In a region the pages it
frees are therefore two apart, and no two of them are buddies. If no region begins where another one
ends, none of them ever merge, neither at boot nor later: the free lists hold single pages for ever.

The flag that `alloc_pages_nolock` leaves on a page it hands out does no harm then, as no free looks
at it. But there is never a block of two pages, and the pool of `struct slab`s needs one.

## Main definitions

* `NoBuddies`, `BuddyState.Singles` — pages that cannot merge, and the allocator that holds them
* `MemmapRegion.Apart` — regions of which none begins where another one ends
* `Mm.slabInit` — `slab_init`, with its test of the allocator

## Main results

* `noBuddies_passedOf` — `buddy_init` frees pages that cannot merge
* `BuddyState.Singles.exec` — what every call of the buddy allocator does with such pages
* `boot_pages` — every run after the boot
* `boot_slabInit` — `slab_init` does not return
-/

namespace GoofyOs

open LinkedList ListHead

/-! ### Pages that cannot merge -/

/-- No two of the pages are buddies. -/
def NoBuddies (ps : List ℕ) : Prop := ∀ p ∈ ps, Dyadic.buddy p 0 ∉ ps

/-- The buddy of a page is the page after it or the one before it. -/
theorem buddy_zero_cases (p : ℕ) : Dyadic.buddy p 0 = p + 1 ∨ Dyadic.buddy p 0 + 1 = p := by
  rcases Nat.even_or_odd' p with ⟨m, rfl | rfl⟩
  · exact Or.inl (Dyadic.buddy_of_dvd (k := 0) (Nat.dvd_mul_right 2 m))
  · refine Or.inr (congrArg (· + 1) ?_)
    exact Dyadic.buddy_of_dvd_add (k := 0) (Nat.dvd_mul_right 2 m)

theorem noBuddies_of_succ {ps : List ℕ} (h : ∀ p ∈ ps, p + 1 ∉ ps) : NoBuddies ps := by
  intro p hp hb
  rcases buddy_zero_cases p with heq | heq
  · exact h p hp (heq ▸ hb)
  · exact h _ hb (heq.symm ▸ hp)

/-- Every other frame of a range has the parity of the first. -/
theorem mem_everyOther_range' {a m p : ℕ} (h : p ∈ everyOther (List.range' a m)) :
    ∃ j, p = a + 2 * j := by
  induction m using Nat.strong_induction_on generalizing a with
  | _ m ih =>
    match m, h with
    | 0, h => exact absurd h List.not_mem_nil
    | 1, h => exact ⟨0, List.mem_singleton.mp h⟩
    | m + 2, h =>
      rcases List.mem_cons.mp (show p ∈ a :: everyOther (List.range' (a + 1 + 1) m) from h) with
        rfl | h
      · exact ⟨0, rfl⟩
      · obtain ⟨j, rfl⟩ := ih m (by omega) h
        exact ⟨j + 1, by omega⟩

/-- What is passed of ranges that do not touch has no two consecutive frames. -/
theorem succ_notMem_passedOf {xss : List (List ℕ)}
    (hrange : ∀ xs ∈ xss, ∃ a m, xs = List.range' a m)
    (hpair : xss.Pairwise fun xs ys => ∀ p ∈ xs, ∀ q ∈ ys, p + 1 ≠ q ∧ q + 1 ≠ p) (skip : ℕ) :
    ∀ p ∈ passedOf skip xss, p + 1 ∉ passedOf skip xss := by
  induction xss generalizing skip with
  | nil => exact fun p hp => absurd hp List.not_mem_nil
  | cons xs xss ih =>
    obtain ⟨hfirst, hrest⟩ := List.pairwise_cons.mp hpair
    have hhead : ∀ {p}, p ∈ everyOther (xs.drop skip) → p ∈ xs := fun hp =>
      List.mem_of_mem_drop ((everyOther_sublist _).subset hp)
    have htail : ∀ {p}, p ∈ passedOf (skip - xs.length) xss → ∃ ys ∈ xss, p ∈ ys := fun hp =>
      List.mem_flatten.mp (List.mem_of_mem_drop ((passedOf_sublist _ _).subset hp))
    intro p hp hp'
    rw [passedOf_cons, List.mem_append] at hp hp'
    rcases hp with hp | hp <;> rcases hp' with hp' | hp'
    · obtain ⟨a, m, rfl⟩ := hrange xs List.mem_cons_self
      rw [List.drop_range'] at hp hp'
      obtain ⟨i, hi⟩ := mem_everyOther_range' hp
      obtain ⟨j, hj⟩ := mem_everyOther_range' hp'
      omega
    · obtain ⟨ys, hys, hmem⟩ := htail hp'
      exact (hfirst ys hys p (hhead hp) (p + 1) hmem).1 rfl
    · obtain ⟨ys, hys, hmem⟩ := htail hp
      exact (hfirst ys hys (p + 1) (hhead hp') p hmem).2 rfl
    · exact ih (fun ys hys => hrange ys (List.mem_cons_of_mem _ hys)) hrest _ p hp hp'

/-- No region begins where another one ends. -/
def MemmapRegion.Apart (regions : List MemmapRegion) : Prop :=
  ∀ r ∈ regions, ∀ r' ∈ regions, 0 < r.size → 0 < r'.size → r.base + r.size ≠ r'.base

instance (regions : List MemmapRegion) : Decidable (MemmapRegion.Apart regions) :=
  inferInstanceAs (Decidable (∀ r ∈ regions, ∀ r' ∈ regions, _))

/-- **`buddy_init` frees pages that cannot merge.** -/
theorem noBuddies_passedOf {regions : List MemmapRegion} (hwf : RegionsWellFormed regions)
    (hcounted : Counted regions) (hapart : MemmapRegion.Apart regions) (n : ℕ) :
    NoBuddies (passedOf n (zoneFrames regions)) := by
  refine noBuddies_of_succ (succ_notMem_passedOf ?_ ?_ n)
  · intro xs hxs
    obtain ⟨z, -, rfl⟩ := List.mem_map.mp hxs
    exact ⟨_, _, rfl⟩
  · have hzones : zoneFrames regions = regions.map MemmapRegion.frames ++
        List.replicate (maxBuddyZones - regions.length) [] := framesFrom_zonesOf hcounted
    rw [hzones, List.pairwise_append, List.pairwise_map]
    refine ⟨List.Pairwise.imp_of_mem (fun {r r'} hr hr' hd p hp q hq => ?_) hwf.disj, ?_, ?_⟩
    · have hp := (MemmapRegion.mem_frames (hwf.aligned r hr)).mp hp
      have hq := (MemmapRegion.mem_frames (hwf.aligned r' hr')).mp hq
      rw [MemmapRegion.contains_iff] at hp hq
      have hne := hapart r hr r' hr' (by omega) (by omega)
      have hne' := hapart r' hr' r hr (by omega) (by omega)
      constructor <;> omega
    · refine List.pairwise_replicate.mpr (Or.inr fun p hp => ?_)
      exact absurd hp List.not_mem_nil
    · intro xs _ ys hys p _ q hq
      rw [List.eq_of_mem_replicate hys] at hq
      exact absurd hq List.not_mem_nil

/-! ### The allocator with single pages -/

namespace BuddyState

variable {s : BuddyState} {ps xs : List ℕ} {live : List (ℕ × ℕ)} {n p k order : ℕ}

/-- The free lists with the pages `xs` on the first one. -/
def singleLists (xs : List ℕ) (k : ℕ) : List ℕ := if k = 0 then xs else []

/-- The listed pages and those in use are the pages `ps`, all of them single, and no other page has
`PAGE_FLAG_FREE`. -/
structure Singles (s : BuddyState) (ps : List ℕ) (live : List (ℕ × ℕ)) (xs : List ℕ) : Prop where
  owned : s.Owned (singleLists xs) live
  pages : (xs ++ live.map Prod.fst).Perm ps
  order : ∀ b ∈ live, b.2 = 0
  flagged : ∀ p, s.IsFree p → p ∈ ps

/-- The first list after its front page was taken off. -/
def popPage (s : BuddyState) (p : ℕ) : BuddyState :=
  { s with
    buddyLists := Function.update s.buddyLists 0
      ⟨s.links.next p, asUint ((s.buddyLists 0).count + (2 ^ 32 - 1))⟩ }

theorem heads_popPage : (s.popPage p).heads = Function.update s.heads 0 (s.links.next p) := by
  funext k
  simp only [heads, popPage, Function.update_apply]
  split <;> rfl

theorem update_singleLists (xs ys : List ℕ) :
    Function.update (singleLists xs) 0 ys = singleLists ys := by
  funext k
  rcases eq_or_ne k 0 with rfl | hk
  · rw [Function.update_self]
    rfl
  · rw [Function.update_of_ne hk, singleLists, singleLists, if_neg hk, if_neg hk]

/-- The lists are what the `next` fields visit. -/
theorem Owned.eq_singleLists {L : ℕ → List ℕ} (ho : s.Owned L live)
    (hwalk : Walk s.links.next (s.heads 0) xs)
    (hnil : ∀ k ≠ 0, Walk s.links.next (s.heads k) []) : L = singleLists xs := by
  funext k
  rcases eq_or_ne k 0 with rfl | hk
  · exact (ho.rep.walk 0).unique hwalk
  · rw [singleLists, if_neg hk]
    exact (ho.rep.walk k).unique (hnil k hk)

namespace Singles

theorem mem_live (h : s.Singles ps live xs) (hp : (p, k) ∈ live) : p ∈ ps :=
  h.pages.mem_iff.mp (List.mem_append_right _ (List.mem_map_of_mem hp))

theorem length (h : s.Singles ps live xs) : xs.length + live.length = ps.length := by
  have hlen := h.pages.length_eq
  rwa [List.length_append, List.length_map] at hlen

theorem count (h : s.Singles ps live xs) (hk : k ≤ maxOrder) :
    (s.buddyLists k).count = (singleLists xs k).length := h.owned.count k hk

theorem good (h : s.Singles ps live xs) : (BuddySys.mk s live).Good := h.owned.good

/-- **`free_pages`** does not merge. -/
theorem freePages (h : s.Singles ps live xs) (hz : s.ZonesFit) (hps : NoBuddies ps)
    (hp : (p, k) ∈ live) : (s.freePages p k).Singles ps (live.erase (p, k)) (p :: xs) := by
  obtain rfl : k = 0 := h.order _ hp
  have hperm := List.perm_cons_erase hp
  have howned := h.owned.perm hperm
  have hlt := (howned.live_block List.mem_cons_self).2.start_lt hz
  have hmerge : ¬ s.MergeTest (asUint (getBuddy p 0)) 0 := by
    rw [asUint_getBuddy hlt (Nat.zero_le _)]
    exact fun hm => hps p (h.mem_live hp) (h.flagged _ hm.2.1)
  have hfree : s.freePages p 0 = s.directFree p 0 := freePagesAux_of_not_merge hmerge
  rw [hfree]
  refine ⟨?_, ?_, fun b hb => h.order b (List.mem_of_mem_erase hb), fun q hq => ?_⟩
  · have ho := howned.directFree hz
    rwa [show p :: singleLists xs 0 = p :: xs from rfl, update_singleLists] at ho
  · refine List.Perm.trans ?_ h.pages
    refine List.perm_middle.symm.trans (List.Perm.append_left xs ?_)
    exact (hperm.map Prod.fst).symm
  · rcases isFree_directFree.mp hq with rfl | hq
    · exact h.mem_live hp
    · exact h.flagged q hq

/-- There is no block of two pages. -/
theorem allocPagesAux_pos (h : s.Singles ps live xs) (hpos : 0 < k) (hk : k ≤ maxOrder)
    (hn : maxOrder < k + n) : allocPagesAux n s k = some (none, s) := by
  induction n generalizing k with
  | zero => omega
  | succ n ih =>
    have hcount : (s.buddyLists k).count = 0 := by
      rw [h.count hk, singleLists, if_neg (Nat.ne_of_gt hpos)]
      rfl
    rw [allocPagesAux, if_neg (Nat.not_lt.mpr hk), if_neg (by omega)]
    split
    · rfl
    · next htop => rw [ih (Nat.succ_pos k) (by omega) (by omega)]

/-- When all pages are in use there is none. -/
theorem allocPagesNolock_nil (h : s.Singles ps live []) :
    s.allocPagesNolock 0 = some (none, s) := by
  have hcount : (s.buddyLists 0).count = 0 := h.count (Nat.zero_le _)
  rw [allocPagesNolock, allocPagesAux, if_neg (Nat.not_lt_zero _), if_neg (by omega),
    if_neg (by decide), h.allocPagesAux_pos Nat.one_pos (by decide) (by decide)]

/-- **The front page** is handed out, with its flag. -/
theorem allocPagesNolock_cons (h : s.Singles ps live (p :: xs)) (hz : s.ZonesFit) :
    ∃ t, s.allocPagesNolock 0 = some (some p, t) ∧ t.validBuddyPfn = s.validBuddyPfn ∧
      t.Singles ps ((p, 0) :: live) xs := by
  have hwalk : Walk s.links.next (s.heads 0) (p :: xs) := h.owned.rep.walk 0
  have hcount : 0 < (s.buddyLists 0).count := by
    rw [h.count (Nat.zero_le _)]
    exact Nat.succ_pos _
  have hpop : listPopFront s.links (s.buddyLists 0).head = some (p, s.links.next p) := by
    rw [show (s.buddyLists 0).head = some p from hwalk.head_eq]
    rfl
  obtain ⟨L, ho⟩ : ∃ L, (s.popPage p).Owned L ((p, 0) :: live) :=
    h.owned.popFront hz (Nat.zero_le _) hwalk.head_eq
  have hL : L = singleLists xs := by
    refine ho.eq_singleLists ?_ fun j hj => ?_
    · rw [heads_popPage, Function.update_self]
      exact hwalk.2
    · have hnil : Walk s.links.next (s.heads j) (singleLists (p :: xs) j) := h.owned.rep.walk j
      rw [singleLists, if_neg hj] at hnil
      rw [heads_popPage, Function.update_of_ne hj]
      exact hnil
  refine ⟨s.popPage p, ?_, rfl, hL ▸ ho, List.perm_middle.trans h.pages, fun b hb => ?_, h.flagged⟩
  · rw [allocPagesNolock, allocPagesAux, if_neg (Nat.not_lt_zero _), if_pos hcount, hpop]
    rfl
  · rcases List.mem_cons.mp hb with rfl | hb
    · rfl
    · exact h.order b hb

/-- The contents of pages do not matter. -/
theorem setMemsets (h : s.Singles ps live xs) (memsets : List (Option ℕ × ℕ)) :
    Singles { s with memsets := memsets } ps live xs :=
  { h with
    owned := { h.owned with
      listed_block := fun hb => ⟨(h.owned.listed_block hb).aligned, (h.owned.listed_block hb).valid⟩
      live_block := fun hb => ⟨(h.owned.live_block hb).1, (h.owned.live_block hb).2.aligned,
        (h.owned.live_block hb).2.valid⟩ } }

/-- **`alloc_pages_nolock`** hands out a page if it is asked for one and there is one. -/
theorem allocPagesNolock (h : s.Singles ps live xs) (hz : s.ZonesFit) (hk : k ≤ maxOrder) :
    ∃ r t ys, s.allocPagesNolock k = some (r, t) ∧ t.validBuddyPfn = s.validBuddyPfn ∧
      t.Singles ps (r.toList.map (·, k) ++ live) ys ∧
      (r.isSome ↔ k = 0 ∧ live.length < ps.length) := by
  have hlen := h.length
  rcases Nat.eq_zero_or_pos k with rfl | hpos
  · cases xs with
    | nil =>
      rw [List.length_nil, Nat.zero_add] at hlen
      refine ⟨none, s, [], h.allocPagesNolock_nil, rfl, h, ?_⟩
      exact iff_of_false Bool.false_ne_true fun hlt => Nat.ne_of_lt hlt.2 hlen
    | cons p xs =>
      rw [List.length_cons] at hlen
      obtain ⟨t, halloc, hv, ht⟩ := h.allocPagesNolock_cons hz
      exact ⟨some p, t, xs, halloc, hv, ht, iff_of_true rfl ⟨rfl, by omega⟩⟩
  · refine ⟨none, s, xs, h.allocPagesAux_pos hpos hk (by omega), rfl, h, ?_⟩
    exact iff_of_false Bool.false_ne_true fun hzero => Nat.ne_of_gt hpos hzero.1

/-- **`alloc_pages`**. -/
theorem allocPages (h : s.Singles ps live xs) (hz : s.ZonesFit) (hk : k ≤ maxOrder)
    (flags : BitVec 32) :
    ∃ r t ys, s.allocPages k flags = some (r, t) ∧ t.validBuddyPfn = s.validBuddyPfn ∧
      t.Singles ps (r.toList.map (·, k) ++ live) ys ∧
      (r.isSome ↔ k = 0 ∧ flags &&& ~~~buddyZero = 0 ∧ live.length < ps.length) := by
  by_cases hflags : flags &&& ~~~buddyZero = 0
  · obtain ⟨r, t, ys, halloc, hv, ht, hr⟩ := h.allocPagesNolock hz hk
    rw [BuddyState.allocPages, if_neg (not_not.mpr hflags), halloc, Option.map_some]
    split
    · exact ⟨r, _, ys, rfl, hv, ht.setMemsets _, by simp only [hr, hflags, true_and]⟩
    · exact ⟨r, t, ys, rfl, hv, ht, by simp only [hr, hflags, true_and]⟩
  · rw [BuddyState.allocPages, if_pos hflags]
    refine ⟨none, s, xs, rfl, rfl, h, ?_⟩
    exact iff_of_false Bool.false_ne_true fun hok => hflags hok.2.1

/-- `alloc_pages` of any order. Past `MAX_ORDER` it returns only if it refuses the flags. -/
theorem of_allocPages {r : Option ℕ} {t : BuddyState} {flags : BitVec 32} (h : s.Singles ps live xs)
    (hz : s.ZonesFit) (halloc : s.allocPages k flags = some (r, t)) :
    t.ZonesFit ∧ ∃ ys, t.Singles ps (r.toList.map (·, k) ++ live) ys := by
  rcases Nat.lt_or_ge maxOrder k with hmax | hmax
  · rw [BuddyState.allocPages] at halloc
    split at halloc
    · obtain ⟨rfl, rfl⟩ := Prod.mk.inj (Option.some.inj halloc)
      exact ⟨hz, xs, h⟩
    · rw [BuddyState.allocPagesNolock, allocPagesAux, if_pos hmax] at halloc
      exact absurd halloc (by simp)
  · obtain ⟨r', t', ys, halloc', hv, ht, -⟩ := h.allocPages hz hmax flags
    obtain ⟨rfl, rfl⟩ := Prod.mk.inj (Option.some.inj (halloc.symm.trans halloc'))
    exact ⟨hz.congr hv, ys, ht⟩

/-- **One call** of the buddy allocator. No condition beyond `Allowed` is needed: nothing merges. -/
theorem exec {sys sys' : BuddySys} {c : BuddyCall} (h : sys.st.Singles ps sys.live xs)
    (hz : sys.st.ZonesFit) (hps : NoBuddies ps) (hok : sys.Allowed c)
    (hstep : sys.exec c = some sys') :
    sys'.st.ZonesFit ∧ ∃ ys, sys'.st.Singles ps sys'.live ys := by
  cases c with
  | allocPages order flags =>
    obtain ⟨⟨r, st⟩, halloc, rfl⟩ := Option.map_eq_some_iff.mp hstep
    exact h.of_allocPages hz halloc
  | freePages page order =>
    obtain rfl := Option.some.inj hstep
    exact ⟨hz.congr (validBuddyPfn_freePagesAux _ _ _ _), _, h.freePages hz hps hok⟩

/-- **The loops of `buddy_init`**, for pages that are not listed yet. -/
theorem freeSingles {qs : List ℕ} (h : s.Singles ps (qs.map (·, 0)) xs) (hz : s.ZonesFit)
    (hps : NoBuddies ps) :
    (GoofyOs.freeSingles s qs).ZonesFit ∧ ∃ ys, (GoofyOs.freeSingles s qs).Singles ps [] ys := by
  induction qs generalizing s xs with
  | nil => exact ⟨hz, xs, h⟩
  | cons q qs ih =>
    have hq := h.freePages hz hps List.mem_cons_self
    rw [List.map_cons, List.erase_cons_head] at hq
    exact ih hq (hz.congr (validBuddyPfn_freePagesAux _ _ _ _))

end Singles

end BuddyState

/-! ### After the boot -/

section Boot

variable {regions : List MemmapRegion} {hhdm n : ℕ} {boot : BootState}

/-- The zones of regions below `2 ^ 44` fit. -/
theorem zonesFit_initState (hlow : ∀ r ∈ regions, r.base + r.size < 2 ^ 44) :
    (initState regions).buddy.ZonesFit := by
  have hvalid : ∀ pfn, (initState regions).buddy.validBuddyPfn pfn = true → pfn < 2 ^ 32 - 1 := by
    intro pfn hpfn
    obtain ⟨z, hz, hin⟩ := List.any_eq_true.mp hpfn
    simp only [Bool.and_eq_true, decide_eq_true_eq] at hin
    rcases List.mem_append.mp (show z ∈ zonesOf regions from hz) with hz | hz
    · obtain ⟨r, hr, rfl⟩ := List.mem_map.mp hz
      have htop := hlow r hr
      have hbase : r.base >>> 12 = r.base / 4096 := Nat.shiftRight_eq_div_pow _ _
      have hsize : asUint (r.size >>> 12) ≤ r.size / 4096 := by
        rw [Nat.shiftRight_eq_div_pow]
        exact Nat.mod_le _ _
      dsimp only at hin
      omega
    · rw [List.eq_of_mem_replicate hz] at hin
      dsimp only at hin
      omega
  refine ⟨fun pfn hpfn => Nat.lt_trans (hvalid pfn hpfn) (by decide), 2 ^ 32 - 1, by decide, ?_⟩
  cases hv : (initState regions).buddy.validBuddyPfn (2 ^ 32 - 1) with
  | false => rfl
  | true => exact absurd (hvalid _ hv) (Nat.lt_irrefl _)

/-- Before the loops of `buddy_init` the pages they will free are in use. -/
theorem singles_initState (hwf : RegionsWellFormed regions) (n : ℕ) :
    (initState regions).buddy.Singles (passedOf n (zoneFrames regions))
      ((passedOf n (zoneFrames regions)).map (·, 0)) [] where
  owned := by
    have hsub := passedOf_sublist n (zoneFrames regions)
    have hnd := hwf.nodup_frames.sublist
      (hsub.trans (((flatten_zoneFrames_sublist regions).drop n).trans (List.drop_sublist _ _)))
    have hnil : BuddyState.singleLists [] = fun _ => [] := funext fun k => ite_self []
    rw [hnil]
    refine
      { rep := Rep.empty _
        count := fun _ _ => rfl
        order_le := fun h => absurd h List.not_mem_nil
        free := fun h => absurd h List.not_mem_nil
        listed_block := fun h => absurd h List.not_mem_nil
        live_block := fun {b} hb => ?_
        listed_disj := fun h => absurd h List.not_mem_nil
        cross_disj := fun h => absurd h List.not_mem_nil
        live_disj := List.pairwise_map.mpr (hnd.imp fun {p q} hne => ?_) }
    · obtain ⟨p, hp, rfl⟩ := List.mem_map.mp hb
      refine ⟨Nat.zero_le _, one_dvd p, fun q hq => ?_⟩
      obtain rfl : p = q := by
        have hq := Dyadic.mem_block.mp hq
        exact Nat.le_antisymm hq.1 (Nat.lt_succ_iff.mp hq.2)
      exact validBuddyPfn_initState (List.mem_of_mem_drop (hsub.subset hp))
    · refine Set.disjoint_left.mpr fun r hp hq => hne ?_
      have hp := Dyadic.mem_block.mp hp
      have hq := Dyadic.mem_block.mp hq
      dsimp only at hp hq
      omega
  pages := by
    rw [List.nil_append, List.map_map]
    exact List.Perm.of_eq (List.map_id _)
  order b hb := by
    obtain ⟨p, -, rfl⟩ := List.mem_map.mp hb
    rfl
  flagged p hp := absurd (show (0 : BitVec 64) &&& pageFlagFree = 0 by decide) hp

/-- **The state after `buddy_init`.** -/
theorem singles_boot (hwf : RegionsWellFormed regions)
    (hlow : ∀ r ∈ regions, r.base + r.size < 2 ^ 44) (hapart : MemmapRegion.Apart regions)
    (hinit : (bootState regions hhdm n).buddyInit = some boot) :
    NoBuddies (boot.passed.map Prod.fst) ∧ boot.buddy.ZonesFit ∧
      ∃ xs, boot.buddy.Singles (boot.passed.map Prod.fst) [] xs := by
  obtain ⟨-, rfl⟩ := buddyInit_eq.mp hinit
  have hcounted : Counted regions := by
    intro r hr
    have := hlow r hr
    rw [show pageSize = 4096 from rfl]
    omega
  have hpassed : ((passedOf n (zoneFrames regions)).map (·, 0)).map Prod.fst =
      passedOf n (zoneFrames regions) := by
    rw [List.map_map]
    exact List.map_id _
  have hps := noBuddies_passedOf hwf hcounted hapart n
  obtain ⟨hz, hs⟩ := (singles_initState hwf n).freeSingles (zonesFit_initState hlow) hps
  dsimp only
  rw [hpassed]
  exact ⟨hps, hz, hs⟩

/-- **Every run after the boot.** When no region begins where another one ends, every run of calls
in which blocks are freed as they were handed out ends in a good state, every block in use is one
page that `buddy_init` freed, and a call hands out a page if and only if it is asked for a single
one, with flags that are accepted, and not all are in use. -/
theorem boot_pages {calls : List BuddyCall} {s : BuddySys} (hwf : RegionsWellFormed regions)
    (hlow : ∀ r ∈ regions, r.base + r.size < 2 ^ 44) (hapart : MemmapRegion.Apart regions)
    (hinit : (bootState regions hhdm n).buddyInit = some boot)
    (hrun : Run BuddySys.exec BuddySys.Allowed ⟨boot.buddy, []⟩ calls s) :
    s.Good ∧ (∀ b ∈ s.live, b ∈ boot.passed) ∧
      ∀ order ≤ maxOrder, ∀ flags, ∃ r t, s.st.allocPages order flags = some (r, t) ∧
        (r.isSome ↔ order = 0 ∧ flags &&& ~~~buddyZero = 0 ∧
          s.live.length < boot.passed.length) := by
  obtain ⟨hps, hz, xs, hs⟩ := singles_boot hwf hlow hapart hinit
  have hinv : s.st.ZonesFit ∧ ∃ ys, s.st.Singles (boot.passed.map Prod.fst) s.live ys :=
    hrun.invariant
      (P := fun s => s.st.ZonesFit ∧ ∃ ys, s.st.Singles (boot.passed.map Prod.fst) s.live ys)
      (fun s c s' ⟨hz, ys, hs⟩ hok hstep => hs.exec hz hps hok hstep) ⟨hz, xs, hs⟩
  obtain ⟨hz, ys, hs⟩ := hinv
  refine ⟨hs.good, fun b hb => ?_, fun order hmax flags => ?_⟩
  · obtain ⟨-, rfl⟩ := buddyInit_eq.mp hinit
    have hmem := hs.mem_live hb
    have horder := hs.order b hb
    obtain ⟨b', hb', heq⟩ := List.mem_map.mp hmem
    obtain ⟨p, hp, rfl⟩ := List.mem_map.mp hb'
    refine List.mem_map.mpr ⟨p, hp, ?_⟩
    exact Prod.ext heq horder.symm
  · obtain ⟨r, t, -, halloc, -, -, hr⟩ := hs.allocPages hz hmax flags
    rw [List.length_map] at hr
    exact ⟨r, t, halloc, hr⟩

/-- What `buddy_init` makes of the two regions when no page is taken: the pages 1, 5 and 7 are
free. -/
def bootedTwoRegions : BootState :=
  { bootState twoRegions 0 0 with
    buddyInitialized := true
    buddy := freeSingles (initState twoRegions).buddy (passedOf 0 (zoneFrames twoRegions))
    passed := (passedOf 0 (zoneFrames twoRegions)).map fun pfn => (pfn, 0) }

theorem buddyInit_twoRegions : (bootState twoRegions 0 0).buddyInit = some bootedTwoRegions :=
  buddyInit_eq.mpr ⟨zonesFitInt_of_lt (by decide), rfl⟩

/-- Two pages are taken and one is given back. -/
theorem boot_pages_twoRegions :
    ∃ s, Run BuddySys.exec BuddySys.Allowed ⟨bootedTwoRegions.buddy, []⟩
        [.allocPages 0 0, .allocPages 0 0, .freePages 7 0] s ∧
      s.Good ∧ (∀ b ∈ s.live, b ∈ bootedTwoRegions.passed) ∧
        ∀ order ≤ maxOrder, ∀ flags, ∃ r t, s.st.allocPages order flags = some (r, t) ∧
          (r.isSome ↔ order = 0 ∧ flags &&& ~~~buddyZero = 0 ∧
            s.live.length < bootedTwoRegions.passed.length) := by
  have hrun : (Run.check BuddySys.exec BuddySys.Allowed ⟨bootedTwoRegions.buddy, []⟩
      [.allocPages 0 0, .allocPages 0 0, .freePages 7 0]).isSome = true := by decide
  obtain ⟨s, hs⟩ := Option.isSome_iff_exists.mp hrun
  exact ⟨s, Run.of_check hs, boot_pages wellFormed_twoRegions (by decide) (by decide)
    buddyInit_twoRegions (Run.of_check hs)⟩

end Boot

/-! ### `slab_init` -/

namespace Mm

/-- The sizes and orders that `slab_init` assigns. -/
def setSizes (m : Mm) : Mm :=
  { m with
    slabs := { m.slabs with
      caches := fun c =>
        match kmallocCaches[c]? with
        | some (size, order) => { m.slabs.caches c with size := size, order := order }
        | none => m.slabs.caches c } }

/-- `slab_init` up to its test of the allocator. -/
def slabSetup (m : Mm) : Option Mm :=
  (m.pool.mempoolInit sizeofSlab 1).map fun pool => { m with pool := pool }.setSizes

/-- A loop that allocates a number of chunks. -/
def kmallocSamples : ℕ → Mm → Option (List (Option ℕ) × Mm)
  | 0, m => some ([], m)
  | n + 1, m => do
    let (sample, m) ← m.kmalloc 8192
    let (samples, m) ← kmallocSamples n m
    some (sample :: samples, m)

/-- The loop that frees them. -/
def kfreeSamples : List (Option ℕ) → Mm → Option Mm
  | [], m => some m
  | sample :: samples, m => do
    let chunk ← sample
    let m ← m.kfree chunk
    kfreeSamples samples m

/-- `slab_init`. -/
def slabInit (m : Mm) : Option Mm := do
  let m ← m.slabSetup
  let (samples, m) ← kmallocSamples 0x10 m
  let m ← kfreeSamples samples m
  let (_, m) ← kmallocSamples 0x10 m
  some m

variable {m m' : Mm} {ps xs : List ℕ} {live : List (ℕ × ℕ)} {size : ℕ}

/-- The pages cannot merge, there are no slabs and the pool is empty, with blocks of two pages. -/
structure Starved (m : Mm) (ps : List ℕ) (live : List (ℕ × ℕ)) : Prop where
  noBuddies : NoBuddies ps
  zonesFit : m.buddy.ZonesFit
  singles : ∃ xs, m.buddy.Singles ps live xs
  noSlabs : m.slabs.NoSlabs
  pool : m.pool.count = 0 ∧ m.pool.order = 1

/-- `mempool_zalloc` writes through the null pointer that it gets. -/
theorem mempoolZalloc_none (hz : m.buddy.ZonesFit) (hs : m.buddy.Singles ps live xs)
    (hpool : m.pool.count = 0 ∧ m.pool.order = 1) : m.mempoolZalloc = none := by
  obtain ⟨r, t, ys, halloc, -, -, hr⟩ := hs.allocPages hz (k := 1) (by decide) buddyZero
  obtain rfl : r = none := by
    cases r with
    | none => rfl
    | some p => exact absurd (hr.mp rfl).1 Nat.one_ne_zero
  have hpages : m.allocPages m.pool.order buddyZero = some (none, m.setBuddy t) := by
    rw [Mm.allocPages, hpool.2, halloc]
    rfl
  have hnone : m.pool.mempoolAllocNolock none = some (none, m.pool) := by
    rw [MempoolState.mempoolAllocNolock, if_neg (by omega)]
  have halloc : m.mempoolAlloc = some (none, m.setBuddy t) := by
    rw [mempoolAlloc, if_neg (by omega), hpages]
    show ((m.setBuddy t).pool.mempoolAllocNolock none).map _ = _
    rw [show (m.setBuddy t).pool = m.pool from rfl, hnone]
    rfl
  rw [mempoolZalloc, halloc]
  rfl

/-- **`kmalloc` does not return**: every cache needs a slab, and there is no `struct slab` for
it. -/
theorem Starved.kmalloc (h : m.Starved ps live) (hsize : size ≤ 8192) : m.kmalloc size = none := by
  obtain ⟨xs, hs⟩ := h.singles
  have hneeds : m.slabs.NeedsSlab (kmallocIdx size) :=
    ⟨(h.noSlabs (kmallocIdx size, .part)).2, (h.noSlabs (kmallocIdx size, .empty)).2⟩
  rw [Mm.kmalloc, if_neg (Nat.not_lt.mpr hsize), kmemCacheAlloc, if_pos hneeds, supply]
  cases halloc : m.allocPages (m.slabs.caches (kmallocIdx size)).order 0 with
  | none => rfl
  | some res =>
    obtain ⟨⟨r, t⟩, hbuddy, rfl⟩ := Option.map_eq_some_iff.mp halloc
    obtain ⟨hz, ys, ht⟩ := hs.of_allocPages h.zonesFit hbuddy
    have hzalloc : (m.setBuddy t).mempoolZalloc = none := mempoolZalloc_none hz ht h.pool
    show (((m.setBuddy t).mempoolZalloc).bind _).bind _ = _
    rw [hzalloc]
    rfl

/-- `slab_init` sets up the pool and the caches. -/
theorem Starved.of_slabSetup (hps : NoBuddies ps) (hz : m.buddy.ZonesFit)
    (hs : m.buddy.Singles ps live xs) (hslabs : m.slabs.NoSlabs) (h : m.slabSetup = some m') :
    m'.Starved ps live := by
  obtain ⟨pool, hpool, rfl⟩ := Option.map_eq_some_iff.mp h
  rw [MempoolState.mempoolInit, if_neg (by decide), if_neg (by decide)] at hpool
  obtain rfl := Option.some.inj hpool
  refine ⟨hps, hz, ⟨xs, hs⟩, fun i => ?_, rfl, rfl⟩
  show (setSizes _).slabs.heads i = none ∧ ((setSizes _).slabs.caches i.1).count i.2 = 0
  rw [SlabState.heads]
  simp only [setSizes]
  split
  · exact hslabs i
  · exact hslabs i

end Mm

/-- One call keeps the allocators starved. -/
theorem Mm.Starved.exec {s s' : MmSys} {c : MmCall} {ps : List ℕ} (h : s.mem.Starved ps s.pages)
    (hchunks : s.chunks = ∅) (hok : s.Allowed c) (hstep : s.exec c = some s') :
    s'.mem.Starved ps s'.pages ∧ s'.chunks = ∅ := by
  obtain ⟨xs, hs⟩ := h.singles
  cases c with
  | allocPages order flags =>
    obtain ⟨⟨r, m⟩, hmem, rfl⟩ := Option.map_eq_some_iff.mp hstep
    obtain ⟨⟨r', t⟩, halloc, heq⟩ := Option.map_eq_some_iff.mp hmem
    obtain ⟨rfl, rfl⟩ := Prod.mk.inj heq
    obtain ⟨hz, hs⟩ := hs.of_allocPages h.zonesFit halloc
    exact ⟨⟨h.noBuddies, hz, hs, h.noSlabs, h.pool⟩, hchunks⟩
  | freePages page order =>
    obtain rfl := Option.some.inj hstep
    have hz := h.zonesFit.congr
      (BuddyState.validBuddyPfn_freePagesAux (maxOrder + 1) s.mem.buddy page order)
    exact ⟨⟨h.noBuddies, hz, ⟨_, hs.freePages h.zonesFit h.noBuddies hok⟩, h.noSlabs, h.pool⟩,
      hchunks⟩
  | kmalloc size =>
    obtain ⟨⟨r, m⟩, hmem, rfl⟩ := Option.map_eq_some_iff.mp hstep
    rcases Nat.lt_or_ge 8192 size with hlarge | hsmall
    · rw [Mm.kmalloc, if_pos hlarge] at hmem
      obtain ⟨rfl, rfl⟩ := Prod.mk.inj (Option.some.inj hmem)
      exact ⟨h, hchunks⟩
    · rw [h.kmalloc hsmall] at hmem
      exact absurd hmem (by simp)
  | kfree chunk =>
    have hmem : chunk ∈ s.chunks := hok
    rw [hchunks] at hmem
    exact absurd hmem (Finset.notMem_empty chunk)

/-- **`slab_init` does not return.** When no region begins where another one ends, its test of the
allocator writes through a null pointer. Without the test, no run of the allocators after it would
have a chunk in use, and no `kmalloc` of a size that has a cache would return. -/
theorem boot_slabInit {regions : List MemmapRegion} {hhdm n : ℕ} {boot : BootState} {m : Mm}
    (hwf : RegionsWellFormed regions) (hlow : ∀ r ∈ regions, r.base + r.size < 2 ^ 44)
    (hapart : MemmapRegion.Apart regions) (hinit : (bootState regions hhdm n).buddyInit = some boot)
    (hbuddy : m.buddy = boot.buddy) (hslabs : m.slabs.NoSlabs) :
    m.slabInit = none ∧ ∀ m' calls s, m.slabSetup = some m' →
      Run MmSys.exec MmSys.Allowed ⟨m', [], [], ∅⟩ calls s →
        s.chunks = ∅ ∧ ∀ size ≤ 8192, s.mem.kmalloc size = none := by
  obtain ⟨hps, hz, xs, hs⟩ := singles_boot hwf hlow hapart hinit
  rw [← hbuddy] at hz hs
  have hsetup : ∀ m', m.slabSetup = some m' → m'.Starved (boot.passed.map Prod.fst) [] :=
    fun m' h => .of_slabSetup hps hz hs hslabs h
  constructor
  · rw [Mm.slabInit]
    cases h : m.slabSetup with
    | none => rfl
    | some m' =>
      have hkmalloc := (hsetup m' h).kmalloc (Nat.le_refl 8192)
      show ((Mm.kmallocSamples 0x10 m').bind _) = _
      rw [Mm.kmallocSamples, hkmalloc]
      rfl
  · intro m' calls s h hrun
    have hinv := hrun.invariant
      (P := fun s => s.mem.Starved (boot.passed.map Prod.fst) s.pages ∧ s.chunks = ∅)
      (fun s c s' hs hok hstep => hs.1.exec hs.2 hok hstep) ⟨hsetup m' h, rfl⟩
    exact ⟨hinv.2, fun size hsize => hinv.1.kmalloc hsize⟩

/-- The two regions, with a pool that `slab_init` sets up anew. -/
def starvedTwoRegions : Mm where
  buddy := bootedTwoRegions.buddy
  slabs := { slabStart with pageSlab := bootedTwoRegions.buddy.links.next }
  pool := halfPages
  slabMempool := 0
  union := rfl

theorem boot_slabInit_twoRegions :
    starvedTwoRegions.slabInit = none ∧ ∀ m' calls s, starvedTwoRegions.slabSetup = some m' →
      Run MmSys.exec MmSys.Allowed ⟨m', [], [], ∅⟩ calls s →
        s.chunks = ∅ ∧ ∀ size ≤ 8192, s.mem.kmalloc size = none :=
  boot_slabInit wellFormed_twoRegions (by decide) (by decide) buddyInit_twoRegions rfl
    fun _ => ⟨rfl, rfl⟩

end GoofyOs
