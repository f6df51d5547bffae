import GoofyOs.ForMathlib.DyadicBlock
import GoofyOs.ForMathlib.Run
import GoofyOs.ForMathlib.Slots
import GoofyOs.Slab
import Mathlib.Data.Finset.Insert
import Mathlib.Data.List.Perm.Basic

/-!
# Whole runs of the slab allocator

A run is a sequence of `kmem_cache_alloc` calls and of `kmem_cache_free` calls on chunks in use.
When a cache needs a new slab, the call carries the fresh block of pages and the fresh zeroed
`struct slab` that `alloc_pages` and `mempool_zalloc` return.

Slabs leave the front of a list with `list_pop_front` and its middle with `list_remove_node`. The
second writes through the `prev` field that the first leaves stale, so a free that removes the
front slab of a list can cut another list. `CleanRemove` excludes that, and `SlabInv` is then an
invariant: every slab is on the one list that its `free_objects` selects.

## Main definitions

* `SlabBlock` — a slab of a cache with the pages it was carved from
* `SlabState.SlabInv` — the invariant
* `SlabSys`, `SlabCall` — the allocator with its slabs and the chunks in use

## Main results

* `SlabState.SlabInv.kmemCacheAlloc`, `SlabState.SlabInv.kmemCacheFree` — each call keeps the
  invariant
* `slab_run_good` — so does every run of clean calls
* `slab_run_not_good` — a run of sixteen calls on one cache loses a slab
-/

namespace GoofyOs

open LinkedList ListHead

/-- A slab, the cache it belongs to and the block of pages it was carved from. -/
structure SlabBlock where
  cache : ℕ
  page : ℕ
  slab : ℕ
  deriving DecidableEq

namespace SlabState

variable {s : SlabState} {L : ℕ × SlabList → List ℕ} {blocks : List SlabBlock}
  {live : List (ℕ × ℕ)} {b : SlabBlock} {F : List ℕ} {c n x y z : ℕ} {k : SlabList}
  {i j : ℕ × SlabList}

/-! ### The lists and their counters -/

/-- The lists visit the slabs `L` and the counters are their lengths. -/
structure Lists (s : SlabState) (L : ℕ × SlabList → List ℕ) : Prop where
  rep : Rep s.slabList s.heads L
  count : ∀ i, (s.caches i.1).count i.2 = (L i).length

theorem heads_setList (c : ℕ) (k : SlabList) (head : Option ℕ) (m : ℤ) :
    (s.setList c k head m).heads = Function.update s.heads (c, k) head := by
  funext i
  obtain ⟨d, j⟩ := i
  rcases eq_or_ne d c with rfl | hd
  · rcases eq_or_ne j k with rfl | hj
    · simp [heads, setList]
    · simp [heads, setList, hj]
  · simp [heads, setList, hd]

theorem count_setList (c : ℕ) (k : SlabList) (head : Option ℕ) (m : ℤ) (i : ℕ × SlabList) :
    ((s.setList c k head m).caches i.1).count i.2 =
      if i = (c, k) then m else (s.caches i.1).count i.2 := by
  obtain ⟨d, j⟩ := i
  rcases eq_or_ne d c with rfl | hd
  · rcases eq_or_ne j k with rfl | hj
    · simp [setList]
    · simp [setList, hj]
  · simp [setList, hd]

@[simp] theorem size_setList (c : ℕ) (k : SlabList) (head : Option ℕ) (m : ℤ) (d : ℕ) :
    ((s.setList c k head m).caches d).size = (s.caches d).size := by
  rcases eq_or_ne d c with rfl | hd
  · simp [setList]
  · simp [setList, hd]

@[simp] theorem order_setList (c : ℕ) (k : SlabList) (head : Option ℕ) (m : ℤ) (d : ℕ) :
    ((s.setList c k head m).caches d).order = (s.caches d).order := by
  rcases eq_or_ne d c with rfl | hd
  · simp [setList]
  · simp [setList, hd]

/-- The lists after one of them has changed and its counter with it. -/
theorem Lists.setList {s' : SlabState} {head : Option ℕ} {m : ℤ} {xs : List ℕ}
    (hl : s.Lists L) (hcaches : s'.caches = s.caches) (hm : m = xs.length)
    (hrep : Rep s'.slabList (Function.update s.heads i head) (Function.update L i xs)) :
    (s'.setList i.1 i.2 head m).Lists (Function.update L i xs) where
  rep := by
    rw [heads_setList]
    have : s'.heads = s.heads := by
      funext j
      rw [heads, heads, hcaches]
    rw [this]
    exact hrep
  count j := by
    rw [count_setList, Function.update_apply, hcaches]
    split
    · exact hm
    · exact hl.count j

theorem Lists.pushSlab (hl : s.Lists L) (hx : ∀ i, x ∉ L i) (c : ℕ) (k : SlabList) :
    (s.pushSlab c k x).Lists (Function.update L (c, k) (x :: L (c, k))) :=
  hl.setList (i := (c, k)) rfl (by rw [hl.count (c, k), List.length_cons]; push_cast; rfl)
    (hl.rep.push hx (c, k))

theorem Lists.removeSlab (hl : s.Lists L) (hx : x ∈ L (c, k))
    (hc : CleanUnlink s.slabList s.heads (c, k) x) :
    (s.removeSlab c k x).Lists (Function.update L (c, k) ((L (c, k)).erase x)) := by
  refine hl.setList (i := (c, k)) rfl ?_ (hl.rep.remove hx hc)
  have := List.length_pos_of_mem hx
  rw [hl.count (c, k), List.length_erase_of_mem hx]
  omega

/-- Popping the front slab of a list. -/
theorem Lists.popSlab (hl : s.Lists L) (hx : (s.caches c).slabs k = some x) :
    ∃ xs, L (c, k) = x :: xs ∧
      (s.setList c k (s.slabList.next x) ((s.caches c).count k - 1)).Lists
        (Function.update L (c, k) xs) := by
  obtain ⟨xs, hL, hrep⟩ := hl.rep.pop (i := (c, k)) hx
  refine ⟨xs, hL, hl.setList (i := (c, k)) rfl ?_ hrep⟩
  rw [hl.count (c, k), hL, List.length_cons]
  push_cast
  omega

/-- A list with a positive counter has a front slab. -/
theorem Lists.exists_head (hl : s.Lists L) (hn : (s.caches c).count k ≠ 0) :
    ∃ x, (s.caches c).slabs k = some x := by
  rw [hl.count (c, k)] at hn
  obtain ⟨x, xs, hL⟩ := List.exists_cons_of_ne_nil (l := L (c, k)) (by
    rintro h
    simp [h] at hn)
  exact ⟨x, (hl.rep.walk (c, k)).head_eq.trans (by rw [hL]; rfl)⟩

/-! ### Layout -/

/-- Two states agree on the layout of the caches and of memory. No call changes it. -/
structure SameLayout (s s' : SlabState) : Prop where
  hhdmOffset : s'.hhdmOffset = s.hhdmOffset
  size : ∀ c, (s'.caches c).size = (s.caches c).size
  order : ∀ c, (s'.caches c).order = (s.caches c).order

/-- The pages a slab was carved from. -/
def pages (s : SlabState) (b : SlabBlock) : Set ℕ := Dyadic.block b.page (s.caches b.cache).order

/-- The addresses of the chunks of a slab. -/
def chunks (s : SlabState) (b : SlabBlock) : List ℕ :=
  (List.range (s.caches b.cache).nObjects).map fun i =>
    s.pageToVirt b.page + (s.caches b.cache).size * i

namespace SameLayout

variable {s' s'' : SlabState}

theorem refl (s : SlabState) : s.SameLayout s := ⟨rfl, fun _ => rfl, fun _ => rfl⟩

theorem trans (h : s.SameLayout s') (h' : s'.SameLayout s'') : s.SameLayout s'' where
  hhdmOffset := h'.hhdmOffset.trans h.hhdmOffset
  size c := (h'.size c).trans (h.size c)
  order c := (h'.order c).trans (h.order c)

theorem nObjects (h : s.SameLayout s') (c : ℕ) :
    (s'.caches c).nObjects = (s.caches c).nObjects := by
  rw [KmemCache.nObjects, KmemCache.slabSize, h.size, h.order]
  rfl

theorem listFor (h : s.SameLayout s') (c : ℕ) (m : ℤ) :
    (s'.caches c).listFor m = (s.caches c).listFor m := by
  rw [KmemCache.listFor, h.nObjects]
  rfl

theorem wellFormed (h : s.SameLayout s') (hw : (s.caches c).WellFormed) :
    (s'.caches c).WellFormed := by
  refine ⟨?_, ?_⟩
  · rw [h.size]
    exact hw.room
  · rw [KmemCache.slabSize, h.size, h.order]
    exact hw.fits

theorem pages (h : s.SameLayout s') (b : SlabBlock) : s'.pages b = s.pages b := by
  rw [SlabState.pages, h.order]
  rfl

theorem chunks (h : s.SameLayout s') (b : SlabBlock) : s'.chunks b = s.chunks b := by
  rw [SlabState.chunks, h.nObjects, h.size, pageToVirt, h.hhdmOffset]
  rfl

theorem hhdmToPage (h : s.SameLayout s') (addr : ℕ) : s'.hhdmToPage addr = s.hhdmToPage addr := by
  rw [SlabState.hhdmToPage, h.hhdmOffset]
  rfl

end SameLayout

theorem sameLayout_setList (c : ℕ) (k : SlabList) (head : Option ℕ) (m : ℤ) :
    s.SameLayout (s.setList c k head m) where
  hhdmOffset := rfl
  size := by simp
  order := by simp

theorem sameLayout_pushSlab (s : SlabState) (i : ℕ × SlabList) (x : ℕ) :
    s.SameLayout (s.pushSlab i.1 i.2 x) where
  hhdmOffset := rfl
  size := by simp [pushSlab]
  order := by simp [pushSlab]

theorem sameLayout_removeSlab (s : SlabState) (i : ℕ × SlabList) (x : ℕ) :
    s.SameLayout (s.removeSlab i.1 i.2 x) where
  hhdmOffset := rfl
  size := by simp [removeSlab]
  order := by simp [removeSlab]

@[simp] theorem sameLayout_setFreelist {x : ℕ} {freelist : Option ℕ} {m : ℤ} {s' : SlabState} :
    s.SameLayout (s'.setFreelist x freelist m) ↔ s.SameLayout s' :=
  ⟨fun h => ⟨h.hhdmOffset, h.size, h.order⟩, fun h => ⟨h.hhdmOffset, h.size, h.order⟩⟩

theorem length_chunks (s : SlabState) (b : SlabBlock) :
    (s.chunks b).length = (s.caches b.cache).nObjects := by
  simp [chunks]

theorem nodup_chunks (hw : (s.caches b.cache).WellFormed) : (s.chunks b).Nodup :=
  nodup_slots (Nat.lt_of_lt_of_le (by decide) hw.room) _ _

theorem nObjects_pos (hw : (s.caches c).WellFormed) : 0 < (s.caches c).nObjects :=
  Nat.div_pos hw.fits (lt_of_lt_of_le (by decide) hw.room)

/-- The page of a chunk is one of the pages of its slab. -/
theorem hhdmToPage_chunk (hw : (s.caches b.cache).WellFormed) (hy : y ∈ s.chunks b) :
    s.hhdmToPage y ∈ s.pages b := by
  obtain ⟨i, hi, rfl⟩ := List.mem_map.mp hy
  have hsize := hw.room
  have hlt : (s.caches b.cache).size * i < 2 ^ (s.caches b.cache).order * 4096 := by
    have h := Nat.mul_le_of_le_div _ _ _ (List.mem_range.mp hi)
    rw [KmemCache.slabSize, pageSize, Nat.shiftLeft_eq] at h
    calc (s.caches b.cache).size * i < (s.caches b.cache).size * i.succ := by
          rw [Nat.mul_succ]
          omega
      _ = i.succ * (s.caches b.cache).size := Nat.mul_comm _ _
      _ ≤ 2 ^ (s.caches b.cache).order * 4096 := by rwa [Nat.mul_comm (2 ^ _)]
  have hpage : s.hhdmToPage (s.pageToVirt b.page + (s.caches b.cache).size * i) =
      b.page + (s.caches b.cache).size * i / 4096 := by
    rw [hhdmToPage, pageToVirt, Nat.shiftRight_eq_div_pow, Nat.shiftLeft_eq]
    omega
  rw [hpage]
  exact ⟨Nat.le_add_right _ _, Nat.add_lt_add_left (Nat.div_lt_of_lt_mul (by omega)) _⟩

/-- `kmem_insert_slab` chooses `slab_full` exactly when no chunk is free. -/
theorem listFor_eq_full_iff (hw : (s.caches c).WellFormed) {m : ℤ} :
    (s.caches c).listFor m = .full ↔ m = 0 := by
  have := nObjects_pos hw
  rw [KmemCache.listFor]
  split_ifs <;> simp <;> omega

/-! ### The invariant -/

/-- What one slab knows about itself, when `F` are its free chunks and `U` those in use. -/
structure SlabOk (s : SlabState) (b : SlabBlock) (F U : List ℕ) : Prop where
  wellFormed : (s.caches b.cache).WellFormed
  cache : (s.slab b.slab).cache = some b.cache
  pageSlab : ∀ q ∈ s.pages b, s.pageSlab q = some b.slab
  free : Walk s.chunkNext (s.slab b.slab).freelist F
  freeObjects : (s.slab b.slab).freeObjects = F.length
  perm : (F ++ U).Perm (s.chunks b)

/-- The list that `free_objects` selects for a slab. -/
def listOf (s : SlabState) (b : SlabBlock) : ℕ × SlabList :=
  (b.cache, (s.caches b.cache).listFor (s.slab b.slab).freeObjects)

/-- **The invariant.** The slabs are apart, each is on the one list its `free_objects` selects,
nothing else is on a list, and the free and used chunks of slab `x` are `F x` and `U x`. -/
structure SlabInv (s : SlabState) (L : ℕ × SlabList → List ℕ) (blocks : List SlabBlock)
    (F U : ℕ → List ℕ) : Prop where
  lists : s.Lists L
  mem_iff : ∀ i x, x ∈ L i ↔ ∃ b ∈ blocks, b.slab = x ∧ s.listOf b = i
  slabOk : ∀ b ∈ blocks, s.SlabOk b (F b.slab) (U b.slab)
  slab_inj : ∀ a ∈ blocks, ∀ b ∈ blocks, a.slab = b.slab → a = b
  apart : ∀ a ∈ blocks, ∀ b ∈ blocks, a ≠ b → Disjoint (s.pages a) (s.pages b)

variable {s' : SlabState} {U G V : List ℕ} {Fs Us : ℕ → List ℕ} {L' : ℕ × SlabList → List ℕ}

namespace SlabOk

theorem congr (ho : s.SlabOk b F U) (hl : s.SameLayout s')
    (hslab : s'.slab b.slab = s.slab b.slab)
    (hpage : ∀ q ∈ s.pages b, s'.pageSlab q = s.pageSlab q)
    (hnext : ∀ z ∈ F, s'.chunkNext z = s.chunkNext z) : s'.SlabOk b F U where
  wellFormed := hl.wellFormed ho.wellFormed
  cache := by rw [hslab, ho.cache]
  pageSlab q hq := by
    rw [hl.pages] at hq
    rw [hpage q hq, ho.pageSlab q hq]
  free := by
    rw [hslab]
    exact ho.free.congr hnext
  freeObjects := by rw [hslab, ho.freeObjects]
  perm := by
    rw [hl.chunks]
    exact ho.perm

theorem mem_pages (ho : s.SlabOk b F U) (hz : z ∈ F ++ U) : s.hhdmToPage z ∈ s.pages b :=
  hhdmToPage_chunk ho.wellFormed (ho.perm.subset hz)

theorem length_add (ho : s.SlabOk b F U) :
    F.length + U.length = (s.caches b.cache).nObjects := by
  rw [← length_chunks, ← ho.perm.length_eq, List.length_append]

/-- With a chunk in use, the slab is not on `slab_empty`. -/
theorem listOf_of_used (ho : s.SlabOk b F U) (hy : y ∈ U) :
    s.listOf b = (b.cache, if (s.slab b.slab).freeObjects = 0 then .full else .part) := by
  have hadd := ho.length_add
  have hpos := List.length_pos_of_mem hy
  have hfree := ho.freeObjects
  rw [listOf, KmemCache.listFor, if_neg (by omega)]

/-- Off `slab_full`, the slab has a free chunk. -/
theorem exists_free (ho : s.SlabOk b F U) (hk : (s.listOf b).2 ≠ .full) : ∃ y G, F = y :: G := by
  refine List.exists_cons_of_ne_nil ?_
  rintro rfl
  exact hk ((listFor_eq_full_iff ho.wellFormed).mpr (by simpa using ho.freeObjects))

/-- Putting a slab on a list changes nothing that a slab knows. -/
theorem pushSlab (ho : s.SlabOk b F U) (i : ℕ × SlabList) (x : ℕ) :
    (s.pushSlab i.1 i.2 x).SlabOk b F U :=
  ho.congr (sameLayout_pushSlab s i x) rfl (fun _ _ => rfl) fun _ _ => rfl

end SlabOk

/-- The slabs are sound and apart, whatever is on the lists of the caches. -/
structure SlabsOk (s : SlabState) (blocks : List SlabBlock) (F U : ℕ → List ℕ) : Prop where
  slabOk : ∀ b ∈ blocks, s.SlabOk b (F b.slab) (U b.slab)
  slab_inj : ∀ a ∈ blocks, ∀ b ∈ blocks, a.slab = b.slab → a = b
  apart : ∀ a ∈ blocks, ∀ b ∈ blocks, a ≠ b → Disjoint (s.pages a) (s.pages b)

/-- **Moving one slab.** A call that changes only slab `b` and its chunks keeps the others sound. -/
theorem SlabsOk.move (ho : s.SlabsOk blocks Fs Us) (hb : b ∈ blocks) (hl : s.SameLayout s')
    (hslab : ∀ x, x ≠ b.slab → s'.slab x = s.slab x) (hpage : s'.pageSlab = s.pageSlab)
    (hnext : ∀ z, s.hhdmToPage z ∉ s.pages b → s'.chunkNext z = s.chunkNext z)
    (hok : s'.SlabOk b G V) :
    s'.SlabsOk blocks (Function.update Fs b.slab G) (Function.update Us b.slab V) where
  slabOk a ha := by
    by_cases hab : a = b
    · subst hab
      simpa using hok
    · have hne : a.slab ≠ b.slab := fun h => hab (ho.slab_inj a ha b hb h)
      rw [Function.update_of_ne hne, Function.update_of_ne hne]
      have hao := ho.slabOk a ha
      refine hao.congr hl (hslab _ hne) (fun q _ => by rw [hpage]) fun z hz => hnext z fun hzb => ?_
      exact Set.disjoint_left.mp (ho.apart a ha b hb hab) (hao.mem_pages (by simp [hz])) hzb
  slab_inj := ho.slab_inj
  apart a ha b hb hab := by
    rw [hl.pages, hl.pages]
    exact ho.apart a ha b hb hab

namespace SlabInv

theorem slabsOk (hi : s.SlabInv L blocks Fs Us) : s.SlabsOk blocks Fs Us :=
  ⟨hi.slabOk, hi.slab_inj, hi.apart⟩

theorem listed (hi : s.SlabInv L blocks Fs Us) (hx : x ∈ L i) :
    ∃ b ∈ blocks, b.slab = x ∧ s.listOf b = i := (hi.mem_iff i x).mp hx

theorem mem_listOf (hi : s.SlabInv L blocks Fs Us) (hb : b ∈ blocks) : b.slab ∈ L (s.listOf b) :=
  (hi.mem_iff _ _).mpr ⟨b, hb, rfl, rfl⟩

/-- **Moving one slab.** A call that changes only slab `b`, its chunks and its place on the lists
keeps the invariant. -/
theorem move (hi : s.SlabInv L blocks Fs Us) (hb : b ∈ blocks) (hl : s.SameLayout s')
    (hlists : s'.Lists L')
    (hmem : ∀ i x, x ∈ L' i ↔ if x = b.slab then i = s'.listOf b else x ∈ L i)
    (hslab : ∀ x, x ≠ b.slab → s'.slab x = s.slab x) (hpage : s'.pageSlab = s.pageSlab)
    (hnext : ∀ z, s.hhdmToPage z ∉ s.pages b → s'.chunkNext z = s.chunkNext z)
    (hok : s'.SlabOk b G V) :
    s'.SlabInv L' blocks (Function.update Fs b.slab G) (Function.update Us b.slab V) := by
  obtain ⟨hslabOk, hinj, hapart⟩ := hi.slabsOk.move hb hl hslab hpage hnext hok
  refine ⟨hlists, fun i x => ?_, hslabOk, hinj, hapart⟩
  rw [hmem]
  split_ifs with hx
  · subst hx
    constructor
    · intro h
      exact ⟨b, hb, rfl, h.symm⟩
    · rintro ⟨a, ha, hab, rfl⟩
      rw [hi.slab_inj a ha b hb hab]
  · rw [hi.mem_iff]
    refine exists_congr fun a => and_congr_right fun _ => and_congr_right fun hax => ?_
    rw [listOf, listOf, hl.listFor, hslab _ (by rw [hax]; exact hx)]

theorem eq_listOf (hi : s.SlabInv L blocks Fs Us) (hb : b ∈ blocks) (hx : b.slab ∈ L i) :
    i = s.listOf b := by
  obtain ⟨a, ha, hab, rfl⟩ := hi.listed hx
  rw [hi.slab_inj a ha b hb hab]

/-- The lists after slab `b` has left its own. -/
theorem mem_erase (hi : s.SlabInv L blocks Fs Us) (hb : b ∈ blocks) :
    x ∈ Function.update L (s.listOf b) ((L (s.listOf b)).erase b.slab) i ↔
      x ≠ b.slab ∧ x ∈ L i := by
  by_cases hi' : i = s.listOf b
  · subst hi'
    rw [Function.update_self, (hi.lists.rep.nodup _).mem_erase_iff]
  · rw [Function.update_of_ne hi']
    refine ⟨fun h => ⟨?_, h⟩, And.right⟩
    rintro rfl
    exact hi' (hi.eq_listOf hb h)

/-- The lists after slab `b` has gone from its own to the front of list `j`. -/
theorem mem_move (hi : s.SlabInv L blocks Fs Us) (hb : b ∈ blocks)
    (hL : L' = Function.update L (s.listOf b) ((L (s.listOf b)).erase b.slab)) :
    x ∈ Function.update L' j (b.slab :: L' j) i ↔ if x = b.slab then i = j else x ∈ L i := by
  subst hL
  by_cases hij : i = j
  · subst hij
    rw [Function.update_self, List.mem_cons, hi.mem_erase hb]
    by_cases hx : x = b.slab <;> simp [hx]
  · rw [Function.update_of_ne hij, hi.mem_erase hb]
    by_cases hx : x = b.slab <;> simp [hx, hij]

end SlabInv

/-! ### Allocating from a list -/

theorem kmemInsertSlab_eq (hc : (s.slab b.slab).cache = some b.cache) :
    s.kmemInsertSlab b.slab = some (s.pushSlab (s.listOf b).1 (s.listOf b).2 b.slab) := by
  rw [kmemInsertSlab, hc]
  rfl

theorem listOf_pushSlab (s : SlabState) (b : SlabBlock) (i : ℕ × SlabList) (x : ℕ) :
    (s.pushSlab i.1 i.2 x).listOf b = s.listOf b := by
  rw [listOf, (sameLayout_pushSlab s i x).listFor]
  rfl

/-- The state after taking the front slab `b` off list `k` and one chunk out of it. -/
def takeChunk (s : SlabState) (b : SlabBlock) (k : SlabList) (y : ℕ) : SlabState :=
  (s.setList b.cache k (s.slabList.next b.slab) ((s.caches b.cache).count k - 1)).setFreelist
    b.slab (s.chunkNext y) ((s.slab b.slab).freeObjects - 1)

theorem slab_takeChunk :
    (s.takeChunk b k y).slab b.slab = { s.slab b.slab with
      freelist := s.chunkNext y
      freeObjects := (s.slab b.slab).freeObjects - 1 } := by
  simp [takeChunk, setFreelist, SlabState.setList]

theorem sameLayout_takeChunk : s.SameLayout (s.takeChunk b k y) :=
  sameLayout_setFreelist.mpr (sameLayout_setList ..)

theorem slab_setFreelist (s : SlabState) (x : ℕ) (freelist : Option ℕ) (m : ℤ) :
    (s.setFreelist x freelist m).slab x = { s.slab x with
      freelist := freelist
      freeObjects := m } :=
  Function.update_self ..

/-- One free chunk of a slab goes into use. -/
theorem SlabOk.take (ho : s.SlabOk b (y :: F) U) :
    (s.setFreelist b.slab (s.chunkNext y) ((s.slab b.slab).freeObjects - 1)).SlabOk b F (y :: U) := by
  refine ⟨ho.wellFormed, ?_, ho.pageSlab, ?_, ?_, List.perm_middle.trans ho.perm⟩
  · rw [slab_setFreelist]
    exact ho.cache
  · rw [slab_setFreelist]
    exact ho.free.2
  · rw [slab_setFreelist]
    show (s.slab b.slab).freeObjects - 1 = _
    rw [ho.freeObjects, List.length_cons]
    push_cast
    omega

/-- The same, when the slab is taken off its list. -/
theorem SlabOk.takeChunk (ho : s.SlabOk b (y :: F) U) :
    (s.takeChunk b k y).SlabOk b F (y :: U) := by
  have hset : (s.setList b.cache k (s.slabList.next b.slab)
      ((s.caches b.cache).count k - 1)).SlabOk b (y :: F) U :=
    ho.congr (sameLayout_setList ..) rfl (fun _ _ => rfl) fun _ _ => rfl
  exact hset.take

theorem kmemCacheAllocFrom_eq (hx : (s.caches b.cache).slabs k = some b.slab)
    (hc : (s.slab b.slab).cache = some b.cache) (hy : (s.slab b.slab).freelist = some y) :
    s.kmemCacheAllocFrom k b.cache = some (y, (s.takeChunk b k y).pushSlab
      ((s.takeChunk b k y).listOf b).1 ((s.takeChunk b k y).listOf b).2 b.slab) := by
  have hinsert := kmemInsertSlab_eq (s := s.takeChunk b k y) (b := b) (by rw [slab_takeChunk, hc])
  have hget : (s.setList b.cache k (s.slabList.next b.slab)
      ((s.caches b.cache).count k - 1)).kmemGetChunkFromSlab b.slab =
        some (y, s.takeChunk b k y) := by
    rw [kmemGetChunkFromSlab, slistPopFront]
    change Option.map _ (Option.map _ (s.slab b.slab).freelist) = _
    rw [hy]
    rfl
  simp only [kmemCacheAllocFrom, listPopFront, hx, Option.map_some, Option.bind_eq_bind,
    Option.bind_some, hget, hinsert, Option.pure_def]

/-- **Allocating from `slab_partial` or `slab_empty`**, when the counter says there is a slab. One
free chunk of one slab goes into use. -/
theorem SlabInv.kmemCacheAllocFrom (hi : s.SlabInv L blocks Fs Us) (hk : k ≠ .full)
    (hn : (s.caches c).count k ≠ 0) :
    ∃ b ∈ blocks, b.cache = c ∧ ∃ y G s' L', Fs b.slab = y :: G ∧
      s.kmemCacheAllocFrom k c = some (y, s') ∧ s.SameLayout s' ∧
      s'.SlabInv L' blocks (Function.update Fs b.slab G)
        (Function.update Us b.slab (y :: Us b.slab)) := by
  obtain ⟨x, hx⟩ := hi.lists.exists_head hn
  obtain ⟨xs, hL, hpop⟩ := hi.lists.popSlab hx
  obtain ⟨b, hb, rfl, hof⟩ := hi.listed (i := (c, k)) (hL ▸ List.mem_cons_self)
  obtain rfl : b.cache = c := congrArg Prod.fst hof
  have hok := hi.slabOk b hb
  obtain ⟨y, G, hF⟩ := hok.exists_free (by rw [hof]; exact hk)
  have hok' : s.SlabOk b (y :: G) (Us b.slab) := hF ▸ hok
  have herase : xs = (L (s.listOf b)).erase b.slab := by
    rw [hof, hL, List.erase_cons_head]
  have hpop' : (s.takeChunk b k y).Lists
      (Function.update L (s.listOf b) ((L (s.listOf b)).erase b.slab)) := by
    rw [← herase, hof]
    exact ⟨hpop.rep, hpop.count⟩
  have hlay : s.SameLayout (s.takeChunk b k y) := sameLayout_takeChunk
  have hlay' := hlay.trans (sameLayout_pushSlab _ ((s.takeChunk b k y).listOf b) b.slab)
  refine ⟨b, hb, rfl, y, G, _, _, hF, kmemCacheAllocFrom_eq hx hok.cache hok'.free.1, hlay',
    hi.move hb hlay' (hpop'.pushSlab (fun j hj => ((hi.mem_erase hb).mp hj).1 rfl) _ _)
      (fun i x => ?_) (fun x hxb => ?_) rfl (fun _ _ => rfl) ?_⟩
  · rw [listOf_pushSlab]
    exact hi.mem_move hb rfl
  · exact Function.update_of_ne hxb _ _
  · exact hok'.takeChunk.pushSlab _ _

/-! ### Freeing a chunk -/

/-- Removing the slab of `chunk` from the list that `kmem_cache_free_nolock` takes it for is
harmless. -/
def CleanRemove (s : SlabState) (c chunk : ℕ) : Prop :=
  ∀ slab, s.pageSlab (s.hhdmToPage chunk) = some slab →
    CleanUnlink s.slabList s.heads
      (c, if (s.slab slab).freeObjects = 0 then .full else .part) slab

/-- The state after taking slab `b` off its list and giving it the chunk `y`. -/
def giveChunk (s : SlabState) (b : SlabBlock) (y : ℕ) : SlabState :=
  let s₁ := s.removeSlab (s.listOf b).1 (s.listOf b).2 b.slab
  { s₁ with chunkNext := Function.update s.chunkNext y (s.slab b.slab).freelist }.setFreelist
    b.slab (some y) ((s.slab b.slab).freeObjects + 1)

theorem slab_giveChunk :
    (s.giveChunk b y).slab b.slab = { s.slab b.slab with
      freelist := some y
      freeObjects := (s.slab b.slab).freeObjects + 1 } := by
  simp [giveChunk, setFreelist, SlabState.removeSlab, SlabState.setList]

theorem sameLayout_giveChunk : s.SameLayout (s.giveChunk b y) := by
  have h := sameLayout_removeSlab s (s.listOf b) b.slab
  exact sameLayout_setFreelist.mpr ⟨h.hhdmOffset, h.size, h.order⟩

theorem kmemCacheFreeNolock_eq (hp : s.pageSlab (s.hhdmToPage y) = some b.slab)
    (hok : s.SlabOk b F U) (hy : y ∈ U) :
    s.kmemCacheFreeNolock b.cache y = some ((s.giveChunk b y).pushSlab
      ((s.giveChunk b y).listOf b).1 ((s.giveChunk b y).listOf b).2 b.slab) := by
  have hinsert := kmemInsertSlab_eq (s := s.giveChunk b y) (b := b)
    (by rw [slab_giveChunk, hok.cache])
  rw [← hinsert, giveChunk, hok.listOf_of_used hy, kmemCacheFreeNolock, hp]
  by_cases hfull : (s.slab b.slab).freeObjects = 0
  · have hslab : ((s.removeSlab b.cache .full b.slab).slab b.slab).freeObjects = 0 := hfull
    simp only [Option.bind_eq_bind, Option.bind_some, hfull, if_true, hslab, gt_iff_lt,
      lt_irrefl, if_false]
    rfl
  · have hpos : (s.slab b.slab).freeObjects > 0 := by
      have := hok.freeObjects
      omega
    simp only [Option.bind_eq_bind, Option.bind_some, hfull, if_false, hpos, if_true]
    rfl

theorem SlabOk.nodup (ho : s.SlabOk b F U) : (F ++ U).Nodup :=
  ho.perm.nodup_iff.mpr (nodup_chunks ho.wellFormed)

/-- A chunk in use goes back to the free chunks of its slab. -/
theorem SlabOk.giveChunk (ho : s.SlabOk b F U) (hy : y ∈ U) :
    (s.giveChunk b y).SlabOk b (y :: F) (U.erase y) := by
  have hlay : s.SameLayout (s.giveChunk b y) := sameLayout_giveChunk
  have hyF : y ∉ F := fun h => (List.nodup_append.mp ho.nodup).2.2 y h y hy rfl
  refine ⟨hlay.wellFormed ho.wellFormed, ?_, fun q hq => ?_, ?_, ?_, ?_⟩
  · rw [slab_giveChunk]
    exact ho.cache
  · rw [hlay.pages] at hq
    exact ho.pageSlab q hq
  · rw [slab_giveChunk]
    refine ⟨rfl, ?_⟩
    show Walk (Function.update s.chunkNext y _) (Function.update s.chunkNext y _ y) _
    rw [Function.update_self]
    refine ho.free.congr fun z hz => Function.update_of_ne ?_ _ _
    rintro rfl
    exact hyF hz
  · rw [slab_giveChunk]
    show (s.slab b.slab).freeObjects + 1 = _
    rw [ho.freeObjects, List.length_cons]
    push_cast
    rfl
  · rw [hlay.chunks]
    have hmove : (y :: F ++ U.erase y).Perm (F ++ U) :=
      List.perm_middle.symm.trans ((List.perm_cons_erase hy).symm.append_left _)
    exact hmove.trans ho.perm

/-- **Freeing a chunk in use**, cleanly. It goes back to the free chunks of its slab. -/
theorem SlabInv.kmemCacheFree (hi : s.SlabInv L blocks Fs Us) (hb : b ∈ blocks)
    (hy : y ∈ Us b.slab) (hc : s.CleanRemove b.cache y) :
    ∃ s' L', s.kmemCacheFree b.cache y = some s' ∧ s.SameLayout s' ∧
      s'.SlabInv L' blocks (Function.update Fs b.slab (y :: Fs b.slab))
        (Function.update Us b.slab ((Us b.slab).erase y)) := by
  have hok := hi.slabOk b hb
  have hpages : s.hhdmToPage y ∈ s.pages b := hok.mem_pages (by simp [hy])
  have hp := hok.pageSlab _ hpages
  have hof := hok.listOf_of_used hy
  have hclean : CleanUnlink s.slabList s.heads (s.listOf b) b.slab := by
    rw [hof]
    exact hc _ hp
  have hremove := hi.lists.removeSlab (c := (s.listOf b).1) (k := (s.listOf b).2)
    (hi.mem_listOf hb) hclean
  have hgive : (s.giveChunk b y).Lists
      (Function.update L (s.listOf b) ((L (s.listOf b)).erase b.slab)) :=
    ⟨hremove.rep, hremove.count⟩
  have hlay : s.SameLayout (s.giveChunk b y) := sameLayout_giveChunk
  have hlay' := hlay.trans (sameLayout_pushSlab _ ((s.giveChunk b y).listOf b) b.slab)
  refine ⟨_, _, kmemCacheFreeNolock_eq hp hok hy, hlay',
    hi.move hb hlay' (hgive.pushSlab (fun j hj => ((hi.mem_erase hb).mp hj).1 rfl) _ _)
      (fun i x => ?_) (fun x hxb => ?_) rfl (fun z hz => ?_) ?_⟩
  · rw [listOf_pushSlab]
    exact hi.mem_move hb rfl
  · exact Function.update_of_ne hxb _ _
  · refine Function.update_of_ne ?_ _ _
    rintro rfl
    exact hz hpages
  · exact (hok.giveChunk hy).pushSlab _ _

/-! ### A new slab -/

theorem assignPages_apply (page slab n q : ℕ) :
    s.assignPages page slab n q = if page ≤ q ∧ q < page + n then some slab else s.pageSlab q := by
  induction n with
  | zero => rw [if_neg (by omega), assignPages, List.range_zero, List.foldl_nil]
  | succ n ih =>
    rw [assignPages] at ih ⊢
    rw [List.range_succ, List.foldl_append, List.foldl_cons, List.foldl_nil,
      Function.update_apply, ih]
    by_cases hq : q = page + n
    · rw [if_pos hq, if_pos (by omega)]
    · rw [if_neg hq]
      exact if_congr (by omega) rfl rfl

/-- The loop that carves a page leaves a freelist of its chunks, last one first, and writes nowhere
else. -/
theorem carve_spec {size : ℕ} (hsize : 0 < size) (virt n : ℕ) :
    Walk (s.carve virt size n).1 (s.carve virt size n).2
        ((List.range n).map fun i => virt + size * i).reverse ∧
      ∀ z, (z ∉ (List.range n).map fun i => virt + size * i) →
        (s.carve virt size n).1 z = s.chunkNext z := by
  induction n with
  | zero => exact ⟨rfl, fun _ _ => rfl⟩
  | succ n ih =>
    obtain ⟨hwalk, hframe⟩ := ih
    have hstep : s.carve virt size (n + 1) = (Function.update (s.carve virt size n).1
        (virt + size * n) (s.carve virt size n).2, some (virt + size * n)) := by
      simp only [carve, List.range_succ, List.foldl_append, List.foldl_cons, List.foldl_nil,
        slistPushFront]
    rw [hstep, List.range_succ, List.map_append, List.map_singleton, List.reverse_append,
      List.reverse_singleton, List.singleton_append, walk_cons]
    dsimp only
    rw [Function.update_self]
    refine ⟨⟨rfl, hwalk.congr fun z hz => Function.update_of_ne ?_ _ _⟩, fun z hz => ?_⟩
    · rintro rfl
      obtain ⟨i, hi, heq⟩ := List.mem_map.mp (List.mem_reverse.mp hz)
      have := Nat.eq_of_mul_eq_mul_left hsize (Nat.add_left_cancel heq)
      have := List.mem_range.mp hi
      omega
    · rw [List.mem_append, not_or, List.mem_singleton] at hz
      rw [Function.update_of_ne hz.2, hframe z hz.1]

/-- The state after `kmem_cache_new_empty` has built slab `b`, before it inserts it. -/
def buildSlab (s : SlabState) (b : SlabBlock) : SlabState :=
  let r := s.carve (s.pageToVirt b.page) (s.caches b.cache).size (s.caches b.cache).nObjects
  { s with
    slab := Function.update s.slab b.slab ⟨some b.cache, r.2, (s.caches b.cache).nObjects⟩
    slabList :=
      { next := Function.update s.slabList.next b.slab none
        prev := Function.update s.slabList.prev b.slab none }
    pageSlab := s.assignPages b.page b.slab (1 <<< (s.caches b.cache).order)
    chunkNext := r.1 }

theorem slab_buildSlab : (s.buildSlab b).slab b.slab = ⟨some b.cache,
    (s.carve (s.pageToVirt b.page) (s.caches b.cache).size (s.caches b.cache).nObjects).2,
    (s.caches b.cache).nObjects⟩ :=
  Function.update_self ..

theorem sameLayout_buildSlab : s.SameLayout (s.buildSlab b) := ⟨rfl, fun _ => rfl, fun _ => rfl⟩

theorem listOf_buildSlab : (s.buildSlab b).listOf b = (b.cache, .empty) := by
  rw [listOf, slab_buildSlab, sameLayout_buildSlab.listFor, KmemCache.listFor, if_pos rfl]

theorem kmemCacheNewEmpty_eq (s : SlabState) (b : SlabBlock) :
    s.kmemCacheNewEmpty b.cache (some b.page) (some b.slab) =
      some (some 0, (s.buildSlab b).pushSlab b.cache .empty b.slab) := by
  have hinsert := kmemInsertSlab_eq (s := s.buildSlab b) (b := b) (by rw [slab_buildSlab])
  rw [listOf_buildSlab] at hinsert
  change ((s.buildSlab b).kmemInsertSlab b.slab).map _ = _
  rw [hinsert]
  rfl

theorem slab_buildSlab_of_ne (hx : x ≠ b.slab) : (s.buildSlab b).slab x = s.slab x :=
  Function.update_of_ne hx _ _

/-- **Building a slab** from fresh pages and a fresh `struct slab`: all its chunks are free. -/
theorem SlabsOk.buildSlab (ho : s.SlabsOk blocks Fs Us) (hwf : (s.caches b.cache).WellFormed)
    (hslab : ∀ a ∈ blocks, a.slab ≠ b.slab)
    (hpages : ∀ a ∈ blocks, Disjoint (s.pages a) (s.pages b)) :
    (s.buildSlab b).SlabsOk (b :: blocks) (Function.update Fs b.slab (s.chunks b).reverse)
      (Function.update Us b.slab []) := by
  have hlay := sameLayout_buildSlab (s := s) (b := b)
  have hsize : 0 < (s.caches b.cache).size := lt_of_lt_of_le (by decide) hwf.room
  obtain ⟨hwalk, hframe⟩ := carve_spec (s := s) hsize (s.pageToVirt b.page)
    (s.caches b.cache).nObjects
  refine ⟨fun a ha => ?_, fun a ha d hd had => ?_, fun a ha d hd hne => ?_⟩
  · rcases List.mem_cons.mp ha with rfl | ha
    · rw [Function.update_self, Function.update_self]
      refine ⟨hlay.wellFormed hwf, by rw [slab_buildSlab], fun q hq => ?_, ?_, ?_, ?_⟩
      · rw [hlay.pages] at hq
        refine (assignPages_apply ..).trans (if_pos ?_)
        rwa [Nat.one_shiftLeft]
      · rw [slab_buildSlab]
        exact hwalk
      · rw [slab_buildSlab, List.length_reverse, length_chunks]
      · rw [hlay.chunks, List.append_nil]
        exact List.reverse_perm _
    · have hne := hslab a ha
      rw [Function.update_of_ne hne, Function.update_of_ne hne]
      have hao := ho.slabOk a ha
      refine hao.congr hlay (slab_buildSlab_of_ne hne) (fun q hq => ?_)
        fun z hz => hframe z fun hzb => ?_
      · refine (assignPages_apply ..).trans (if_neg fun hqb => ?_)
        rw [Nat.one_shiftLeft] at hqb
        exact Set.disjoint_left.mp (hpages a ha) hq hqb
      · exact Set.disjoint_left.mp (hpages a ha) (hao.mem_pages (by simp [hz]))
          (hhdmToPage_chunk hwf hzb)
  · rcases List.mem_cons.mp ha with rfl | ha' <;> rcases List.mem_cons.mp hd with rfl | hd'
    · rfl
    · exact absurd had.symm (hslab d hd')
    · exact absurd had (hslab a ha')
    · exact ho.slab_inj a ha' d hd' had
  · rw [hlay.pages, hlay.pages]
    rcases List.mem_cons.mp ha with rfl | ha' <;> rcases List.mem_cons.mp hd with rfl | hd'
    · exact absurd rfl hne
    · exact (hpages d hd').symm
    · exact hpages a ha'
    · exact ho.apart a ha' d hd' hne

/-- Putting a slab on a list keeps all slabs sound. -/
theorem SlabsOk.pushSlab (ho : s.SlabsOk blocks Fs Us) (i : ℕ × SlabList) (x : ℕ) :
    (s.pushSlab i.1 i.2 x).SlabsOk blocks Fs Us where
  slabOk a ha := (ho.slabOk a ha).pushSlab i x
  slab_inj := ho.slab_inj
  apart a ha b hb hab := by
    rw [(sameLayout_pushSlab s i x).pages, (sameLayout_pushSlab s i x).pages]
    exact ho.apart a ha b hb hab

/-- A new slab goes to `slab_empty`. -/
theorem SlabInv.kmemCacheNewEmpty (hi : s.SlabInv L blocks Fs Us)
    (hwf : (s.caches b.cache).WellFormed) (hslab : ∀ a ∈ blocks, a.slab ≠ b.slab)
    (hpages : ∀ a ∈ blocks, Disjoint (s.pages a) (s.pages b)) :
    ((s.buildSlab b).pushSlab b.cache .empty b.slab).SlabInv
      (Function.update L (b.cache, .empty) (b.slab :: L (b.cache, .empty))) (b :: blocks)
      (Function.update Fs b.slab (s.chunks b).reverse) (Function.update Us b.slab []) := by
  have hoff : ∀ i, b.slab ∉ L i := by
    intro i hx
    obtain ⟨a, ha, hab, -⟩ := hi.listed hx
    exact hslab a ha hab
  have hbuild : (s.buildSlab b).Lists L := by
    refine ⟨hi.lists.rep.congr (fun i y hy => ?_) fun i y hy => ?_, hi.lists.count⟩
    all_goals
      refine Function.update_of_ne ?_ _ _
      rintro rfl
      exact hoff i hy
  have hlay := (sameLayout_buildSlab (s := s) (b := b)).trans
    (sameLayout_pushSlab _ (b.cache, .empty) b.slab)
  obtain ⟨hslabOk, hinj, hapart⟩ := (hi.slabsOk.buildSlab hwf hslab hpages).pushSlab
    (b.cache, .empty) b.slab
  refine ⟨hbuild.pushSlab hoff _ _, fun i x => ?_, hslabOk, hinj, hapart⟩
  have hlistOf : ((s.buildSlab b).pushSlab b.cache .empty b.slab).listOf b = (b.cache, .empty) :=
    (listOf_pushSlab _ _ (b.cache, .empty) _).trans listOf_buildSlab
  have hold : ∀ a ∈ blocks,
      ((s.buildSlab b).pushSlab b.cache .empty b.slab).listOf a = s.listOf a := by
    intro a ha
    rw [listOf, hlay.listFor]
    exact congrArg (fun sl : Slab => (a.cache, (s.caches a.cache).listFor sl.freeObjects))
      (slab_buildSlab_of_ne (hslab a ha))
  have hmem : x ∈ Function.update L (b.cache, .empty) (b.slab :: L (b.cache, .empty)) i ↔
      (b.slab = x ∧ (b.cache, .empty) = i) ∨ x ∈ L i := by
    by_cases hi' : i = (b.cache, .empty)
    · subst hi'
      simp [eq_comm]
    · simp [hi', Ne.symm hi']
  rw [hmem, hi.mem_iff, List.exists_mem_cons_iff, hlistOf]
  exact or_congr Iff.rfl (exists_congr fun a => and_congr_right fun ha => by rw [hold a ha])

/-! ### The chunks in use -/

/-- Chunk `y` of cache `c` is in use. -/
def Used (blocks : List SlabBlock) (U : ℕ → List ℕ) (c y : ℕ) : Prop :=
  ∃ b ∈ blocks, b.cache = c ∧ y ∈ U b.slab

variable {d : ℕ}

theorem SlabsOk.used_cons (hi : s.SlabsOk blocks Fs Us) (hb : b ∈ blocks) :
    Used blocks (Function.update Us b.slab (y :: Us b.slab)) d z ↔
      (d = b.cache ∧ z = y) ∨ Used blocks Us d z := by
  constructor
  · rintro ⟨a, ha, rfl, hz⟩
    by_cases hab : a.slab = b.slab
    · obtain rfl := hi.slab_inj a ha b hb hab
      rw [Function.update_self] at hz
      rcases List.mem_cons.mp hz with rfl | hz
      · exact Or.inl ⟨rfl, rfl⟩
      · exact Or.inr ⟨a, ha, rfl, hz⟩
    · rw [Function.update_of_ne hab] at hz
      exact Or.inr ⟨a, ha, rfl, hz⟩
  · rintro (⟨rfl, rfl⟩ | ⟨a, ha, rfl, hz⟩)
    · exact ⟨b, hb, rfl, by simp⟩
    · refine ⟨a, ha, rfl, ?_⟩
      by_cases hab : a.slab = b.slab
      · rw [hab, Function.update_self]
        exact List.mem_cons_of_mem _ (hab ▸ hz)
      · rwa [Function.update_of_ne hab]

/-- A chunk in use belongs to one slab only. -/
theorem SlabsOk.used_inj (hi : s.SlabsOk blocks Fs Us) {a : SlabBlock} (ha : a ∈ blocks)
    (hb : b ∈ blocks) (hya : y ∈ Us a.slab) (hyb : y ∈ Us b.slab) : a = b := by
  by_contra hab
  exact Set.disjoint_left.mp (hi.apart a ha b hb hab)
    ((hi.slabOk a ha).mem_pages (List.mem_append_right _ hya))
    ((hi.slabOk b hb).mem_pages (List.mem_append_right _ hyb))

theorem SlabsOk.used_erase (hi : s.SlabsOk blocks Fs Us) (hb : b ∈ blocks)
    (hy : y ∈ Us b.slab) :
    Used blocks (Function.update Us b.slab ((Us b.slab).erase y)) d z ↔
      ¬ (d = b.cache ∧ z = y) ∧ Used blocks Us d z := by
  have hok := hi.slabOk b hb
  have hnd : (Us b.slab).Nodup := (List.nodup_append.mp hok.nodup).2.1
  constructor
  · rintro ⟨a, ha, rfl, hz⟩
    by_cases hab : a.slab = b.slab
    · obtain rfl := hi.slab_inj a ha b hb hab
      rw [Function.update_self, hnd.mem_erase_iff] at hz
      exact ⟨fun h => hz.1 h.2, a, ha, rfl, hz.2⟩
    · rw [Function.update_of_ne hab] at hz
      refine ⟨fun h => ?_, a, ha, rfl, hz⟩
      exact hab (congrArg SlabBlock.slab (hi.used_inj ha hb hz (h.2 ▸ hy)))
  · rintro ⟨hne, a, ha, rfl, hz⟩
    refine ⟨a, ha, rfl, ?_⟩
    by_cases hab : a.slab = b.slab
    · obtain rfl := hi.slab_inj a ha b hb hab
      rw [Function.update_self, hnd.mem_erase_iff]
      exact ⟨fun h => hne ⟨rfl, h⟩, hz⟩
    · rwa [Function.update_of_ne hab]

theorem used_build (hslab : ∀ a ∈ blocks, a.slab ≠ b.slab) :
    Used (b :: blocks) (Function.update Us b.slab []) d z ↔ Used blocks Us d z := by
  rw [Used, List.exists_mem_cons_iff, Function.update_self]
  simp only [List.not_mem_nil, and_false, false_or]
  refine exists_congr fun a => and_congr_right fun ha => ?_
  rw [Function.update_of_ne (hslab a ha)]

/-! ### One call -/

/-- The cache has neither a partial nor an empty slab, so an allocation builds one. -/
def NeedsSlab (s : SlabState) (c : ℕ) : Prop :=
  (s.caches c).count .part = 0 ∧ (s.caches c).count .empty = 0

instance (s : SlabState) (c : ℕ) : Decidable (s.NeedsSlab c) := instDecidableAnd

/-- The `struct slab` and the pages of `b` are none of those in use. -/
def FreshSlab (s : SlabState) (blocks : List SlabBlock) (b : SlabBlock) : Prop :=
  ∀ a ∈ blocks, a.slab ≠ b.slab ∧
    (a.page + 2 ^ (s.caches a.cache).order ≤ b.page ∨
      b.page + 2 ^ (s.caches b.cache).order ≤ a.page)

instance (s : SlabState) (blocks : List SlabBlock) (b : SlabBlock) :
    Decidable (s.FreshSlab blocks b) :=
  List.decidableBAll _ _

theorem FreshSlab.disjoint {a : SlabBlock} (h : s.FreshSlab blocks b) (ha : a ∈ blocks) :
    Disjoint (s.pages a) (s.pages b) := by
  refine Set.disjoint_left.mpr fun q hqa hqb => ?_
  have := (h a ha).2
  have := hqa.1
  have := hqa.2
  have := hqb.1
  have := hqb.2
  omega

/-- The slabs after an allocation from cache `b.cache` to which slab `b` was offered. -/
def blocksAfter (s : SlabState) (blocks : List SlabBlock) (b : SlabBlock) : List SlabBlock :=
  if s.NeedsSlab b.cache then b :: blocks else blocks

/-- **An allocation** returns a chunk, keeps the invariant and adds that chunk to those in use. -/
theorem SlabInv.kmemCacheAlloc (hi : s.SlabInv L blocks Fs Us)
    (hwf : (s.caches b.cache).WellFormed)
    (hfresh : s.NeedsSlab b.cache → s.FreshSlab blocks b) :
    ∃ y s', s.kmemCacheAlloc b.cache (some b.page) (some b.slab) = some (some y, s') ∧
      ∃ L' Fs' Us', s'.SlabInv L' (s.blocksAfter blocks b) Fs' Us' ∧
        ∀ d z, Used (s.blocksAfter blocks b) Us' d z ↔
          (d = b.cache ∧ z = y) ∨ Used blocks Us d z := by
  rw [SlabState.kmemCacheAlloc, kmemCacheAllocNolock, blocksAfter]
  by_cases hpart : (s.caches b.cache).count .part = 0
  · by_cases hempty : (s.caches b.cache).count .empty = 0
    · have hneeds : s.NeedsSlab b.cache := ⟨hpart, hempty⟩
      have hslab : ∀ a ∈ blocks, a.slab ≠ b.slab := fun a ha => (hfresh hneeds a ha).1
      have hi' := hi.kmemCacheNewEmpty hwf hslab fun a ha => (hfresh hneeds).disjoint ha
      have hcount : (((s.buildSlab b).pushSlab b.cache .empty b.slab).caches b.cache).count
          .empty ≠ 0 := by
        rw [hi'.lists.count (b.cache, .empty), Function.update_self, List.length_cons]
        push_cast
        omega
      obtain ⟨a, ha, hac, y, G, s', L', -, hret, -, hinv⟩ :=
        hi'.kmemCacheAllocFrom (c := b.cache) (by decide) hcount
      refine ⟨y, s', ?_, L', _, _, by rw [if_pos hneeds]; exact hinv, fun d z => ?_⟩
      · rw [if_neg (by simpa using hpart), if_neg (by simpa using hempty), kmemCacheNewEmpty_eq]
        simp [kmemCacheAllocEmpty, hret]
      · rw [if_pos hneeds, hi'.slabsOk.used_cons ha, used_build hslab, hac]
    · obtain ⟨a, ha, hac, y, G, s', L', -, hret, -, hinv⟩ :=
        hi.kmemCacheAllocFrom (c := b.cache) (by decide) hempty
      have hneeds : ¬ s.NeedsSlab b.cache := fun h => hempty h.2
      refine ⟨y, s', ?_, L', _, _, by rw [if_neg hneeds]; exact hinv, fun d z => ?_⟩
      · rw [if_neg (by simpa using hpart), if_pos hempty]
        simp [kmemCacheAllocEmpty, hret]
      · rw [if_neg hneeds, hi.slabsOk.used_cons ha, hac]
  · obtain ⟨a, ha, hac, y, G, s', L', -, hret, -, hinv⟩ :=
      hi.kmemCacheAllocFrom (c := b.cache) (by decide) hpart
    have hneeds : ¬ s.NeedsSlab b.cache := fun h => hpart h.1
    refine ⟨y, s', ?_, L', _, _, by rw [if_neg hneeds]; exact hinv, fun d z => ?_⟩
    · rw [if_pos hpart]
      simp [kmemCacheAllocPartial, hret]
    · rw [if_neg hneeds, hi.slabsOk.used_cons ha, hac]

end SlabState

/-! ### Runs -/

/-- The allocator, its slabs, and the chunks in use, each with its cache. -/
structure SlabSys where
  st : SlabState
  blocks : List SlabBlock
  live : Finset (ℕ × ℕ)

/-- What a caller can ask for. An allocation carries the block of pages and the `struct slab` that
are at hand in case the cache needs a new slab. -/
inductive SlabCall
  | alloc (b : SlabBlock)
  | free (cache chunk : ℕ)

namespace SlabSys

/-- One call. -/
def exec (s : SlabSys) : SlabCall → Option SlabSys
  | .alloc b => (s.st.kmemCacheAlloc b.cache (some b.page) (some b.slab)).map fun r =>
    ⟨r.2, s.st.blocksAfter s.blocks b, r.1.elim s.live fun y => insert (b.cache, y) s.live⟩
  | .free cache chunk => (s.st.kmemCacheFree cache chunk).map fun st =>
    ⟨st, s.blocks, s.live.erase (cache, chunk)⟩

/-- Caches are well formed, new slabs are made of fresh memory, and only chunks in use are
freed. -/
def Allowed (s : SlabSys) : SlabCall → Prop
  | .alloc b => (s.st.caches b.cache).WellFormed ∧
    (s.st.NeedsSlab b.cache → s.st.FreshSlab s.blocks b)
  | .free cache chunk => (cache, chunk) ∈ s.live

/-- Removing the slab of a freed chunk from its list is harmless. -/
def Clean (s : SlabSys) : SlabCall → Prop
  | .alloc _ => True
  | .free cache chunk => s.st.CleanRemove cache chunk

instance (s : SlabSys) : (call : SlabCall) → Decidable (s.Allowed call)
  | .alloc b => inferInstanceAs (Decidable ((s.st.caches b.cache).WellFormed ∧
      (s.st.NeedsSlab b.cache → s.st.FreshSlab s.blocks b)))
  | .free cache chunk => inferInstanceAs (Decidable ((cache, chunk) ∈ s.live))

/-- Each list of each cache ends and has as many slabs as its counter says; it visits slabs, and
the slabs it visits are those whose `free_objects` selects it. -/
def Good (s : SlabSys) : Prop :=
  ∀ i, ∃ xs, Walk s.st.slabList.next (s.st.heads i) xs ∧
    (s.st.caches i.1).count i.2 = xs.length ∧
    (∀ x ∈ xs, ∃ b ∈ s.blocks, b.slab = x) ∧
    ∀ b ∈ s.blocks, b.slab ∈ xs ↔ i = s.st.listOf b

/-- The invariant of the allocator, with the chunks in use. -/
def Inv (s : SlabSys) : Prop :=
  ∃ L F U, s.st.SlabInv L s.blocks F U ∧
    ∀ c y, (c, y) ∈ s.live ↔ SlabState.Used s.blocks U c y

variable {s s' : SlabSys} {call : SlabCall}

theorem Inv.good (h : s.Inv) : s.Good := by
  obtain ⟨L, F, U, hi, -⟩ := h
  intro i
  refine ⟨L i, hi.lists.rep.walk i, hi.lists.count i, fun x hx => ?_, fun b hb => ?_⟩
  · obtain ⟨b, hb, hbx, -⟩ := hi.listed hx
    exact ⟨b, hb, hbx⟩
  · constructor
    · intro hx
      exact hi.eq_listOf hb hx
    · rintro rfl
      exact hi.mem_listOf hb

/-- **One call.** An allowed clean call returns and keeps the invariant. -/
theorem Inv.exec (h : s.Inv) (hok : s.Allowed call) (hc : s.Clean call) :
    ∃ s', s.exec call = some s' ∧ s'.Inv := by
  obtain ⟨L, F, U, hi, hlive⟩ := h
  cases call with
  | alloc b =>
    obtain ⟨y, st, hret, L', F', U', hi', hused⟩ := hi.kmemCacheAlloc hok.1 hok.2
    refine ⟨_, by rw [SlabSys.exec, hret]; rfl, L', F', U', hi', fun d z => ?_⟩
    rw [hused, ← hlive]
    simp
  | free c y =>
    obtain ⟨b, hb, rfl, hy⟩ := (hlive c y).mp hok
    obtain ⟨st, L', hret, -, hi'⟩ := hi.kmemCacheFree hb hy hc
    refine ⟨_, by rw [SlabSys.exec, hret]; rfl, L', _, _, hi', fun d z => ?_⟩
    rw [hi.slabsOk.used_erase hb hy, ← hlive]
    simp

end SlabSys

/-- No cache has a slab. -/
def SlabState.NoSlabs (s : SlabState) : Prop :=
  ∀ i, s.heads i = none ∧ (s.caches i.1).count i.2 = 0

theorem SlabState.NoSlabs.inv {st : SlabState} (h : st.NoSlabs) : (SlabSys.mk st [] ∅).Inv := by
  refine ⟨fun _ => [], fun _ => [], fun _ => [], ⟨⟨?_, ?_⟩, ?_, ?_, ?_, ?_⟩, ?_⟩
  · have hheads : st.heads = fun _ => none := funext fun i => (h i).1
    rw [hheads]
    exact Rep.empty _
  · intro i
    rw [(h i).2]
    rfl
  all_goals simp [SlabState.Used]

/-- **Whole runs.** From caches without slabs, every run of allowed clean calls ends in a good
state, in which every allowed clean call returns. -/
theorem slab_run_good {st : SlabState} {calls : List SlabCall} {s : SlabSys} (hst : st.NoSlabs)
    (hrun : Run SlabSys.exec (fun s call => s.Allowed call ∧ s.Clean call) ⟨st, [], ∅⟩ calls s) :
    s.Good ∧ ∀ call, s.Allowed call → s.Clean call → ∃ s', s.exec call = some s' := by
  have hinv : s.Inv := by
    refine hrun.invariant (P := SlabSys.Inv) (fun s call s' h hok hstep => ?_) hst.inv
    obtain ⟨s₁, hs₁, hinv⟩ := h.exec hok.1 hok.2
    rw [hstep] at hs₁
    obtain rfl := Option.some.inj hs₁
    exact hinv
  refine ⟨hinv.good, fun call hok hc => ?_⟩
  obtain ⟨s', hs', -⟩ := hinv.exec hok hc
  exact ⟨s', hs'⟩

/-! ### Sixteen calls that lose a slab -/

/-- Every cache is set up like `kmalloc-4096`, with four chunks in a slab, and has no slabs yet. -/
def slabStart : SlabState where
  caches _ := ⟨4096, 2, fun _ => none, fun _ => 0⟩
  slab _ := ⟨none, none, 0⟩
  slabList := ⟨fun _ => none, fun _ => none⟩
  pageSlab _ := none
  chunkNext _ := none
  hhdmOffset := 0
  released := []

theorem noSlabs_slabStart : slabStart.NoSlabs := fun _ => ⟨rfl, rfl⟩

/-- Three slabs are filled. A chunk of the first and one of the second are freed, and the second is
filled again: it goes from the front of `slab_partial` to the front of `slab_full`, but the first
keeps it in `prev`. Then another chunk of the first slab is freed. -/
def slabCalls : List SlabCall :=
  List.replicate 4 (.alloc ⟨0, 4, 1⟩) ++ List.replicate 4 (.alloc ⟨0, 8, 2⟩) ++
    List.replicate 4 (.alloc ⟨0, 12, 3⟩) ++
      [.free 0 0x4000, .free 0 0x8000, .alloc ⟨0, 16, 4⟩, .free 0 0x5000]

/-- **The defect.** `list_remove_node` writes through the stale `prev` of the first slab, which cuts
the third one off `slab_full`. -/
theorem slab_run_not_good :
    ¬ ∀ (st : SlabState) (calls : List SlabCall) (s : SlabSys),
      st.NoSlabs → Run SlabSys.exec SlabSys.Allowed ⟨st, [], ∅⟩ calls s → s.Good := by
  intro h
  have hrun : (Run.check SlabSys.exec SlabSys.Allowed ⟨slabStart, [], ∅⟩ slabCalls).map
      (fun s => (s.st.heads (0, .full), s.st.slabList.next 2, (s.st.caches 0).count .full)) =
        some (some 2, none, 2) := by
    decide +kernel
  obtain ⟨s, hs, heq⟩ := Option.map_eq_some_iff.mp hrun
  obtain ⟨hhead, hnext, hcount⟩ : s.st.heads (0, .full) = some 2 ∧ s.st.slabList.next 2 = none ∧
      (s.st.caches 0).count .full = 2 := by simpa using heq
  obtain ⟨xs, hw, hlen, -⟩ := h _ _ s noSlabs_slabStart (Run.of_check hs) (0, .full)
  obtain rfl : xs = [2] := hw.unique ⟨hhead, hnext⟩
  rw [hcount] at hlen
  simp at hlen

/-- A run that takes a chunk and gives it back. -/
theorem slab_run_good_one :
    ∃ s, Run SlabSys.exec (fun s call => s.Allowed call ∧ s.Clean call) ⟨slabStart, [], ∅⟩
        [.alloc ⟨0, 4, 1⟩, .free 0 0x7000] s ∧
      s.Good ∧ ∀ call, s.Allowed call → s.Clean call → ∃ s', s.exec call = some s' := by
  have hrun : ∃ s, Run SlabSys.exec (fun s call => s.Allowed call ∧ s.Clean call)
      ⟨slabStart, [], ∅⟩ [.alloc ⟨0, 4, 1⟩, .free 0 0x7000] s := by
    have hfirst : ((SlabSys.mk slabStart [] ∅).exec (.alloc ⟨0, 4, 1⟩)).map
        (fun s => (s.live, s.st.pageSlab (s.st.hhdmToPage 0x7000), s.st.slabList.prev 1,
          (s.exec (.free 0 0x7000)).isSome)) = some ({(0, 0x7000)}, some 1, none, true) := by
      decide
    obtain ⟨s, hs, heq⟩ := Option.map_eq_some_iff.mp hfirst
    obtain ⟨hlive, hpage, hprev, hsome⟩ : s.live = {(0, 0x7000)} ∧
        s.st.pageSlab (s.st.hhdmToPage 0x7000) = some 1 ∧ s.st.slabList.prev 1 = none ∧
        (s.exec (.free 0 0x7000)).isSome = true := by simpa using heq
    obtain ⟨s', hs'⟩ := Option.isSome_iff_exists.mp hsome
    refine ⟨s', .cons ⟨by decide, trivial⟩ hs (.cons ⟨?_, fun slab hslab _ y hy => ?_⟩ hs' (.nil _))⟩
    · simp [SlabSys.Allowed, hlive]
    · rw [hpage] at hslab
      obtain rfl := Option.some.inj hslab
      simp [hprev] at hy
  obtain ⟨s, hrun⟩ := hrun
  exact ⟨s, hrun, slab_run_good noSlabs_slabStart hrun⟩

end GoofyOs
